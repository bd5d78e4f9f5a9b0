import Distill.Text.Bytes

/-!
# Octets of texts

The octets of a text are read back, and an octet that ends a line comes from the end of a line
only.

## Main statements

* `Bytes.text?_ofString` — the octets of a text are read back.
* `Bytes.newline_mem_ofString` — where lines end.
-/

namespace Distill.Bytes

/-- **The octets of a text are read back.** -/
@[simp] theorem text?_ofString (s : String) : text? (ofString s) = some s := by
  have hbytes : (⟨(ofString s).toArray⟩ : ByteArray) = s.toByteArray := rfl
  rw [text?, hbytes, String.fromUTF8?, dif_pos s.isValidUTF8]
  rfl

/-- The octets of a text are those of its characters. -/
theorem ofString_eq_flatMap (s : String) :
    ofString s = s.toList.flatMap String.utf8EncodeChar := by
  have hs : s.toByteArray = (s.toList.flatMap String.utf8EncodeChar).toByteArray := by
    conv => lhs; rw [← String.ofList_toList (s := s)]
    rfl
  rw [ofString, String.toUTF8, hs, List.data_toByteArray]

private theorem ten_ne_ofNat {n : Nat} (h : n % 256 ≠ 10) : (10 : UInt8) ≠ UInt8.ofNat n := by
  intro heq
  have hnat := congrArg UInt8.toNat heq
  rw [UInt8.toNat_ofNat'] at hnat
  exact h hnat.symm

/-- The octet of ten stands for the end of a line only: all octets of longer forms are
greater. -/
private theorem eq_newline_of_mem {c : Char} (h : 10 ∈ String.utf8EncodeChar c) : c = '\n' := by
  rw [String.utf8EncodeChar] at h
  split at h
  · next hsmall =>
    refine Decidable.byContradiction fun hne => ?_
    refine ten_ne_ofNat ?_ (List.mem_singleton.mp h)
    intro hten
    refine hne (Char.ext (UInt32.toNat_inj.mp ?_))
    rw [Nat.mod_eq_of_lt (by omega)] at hten
    exact hten
  · exfalso
    split at h
    · simp only [List.mem_cons, List.not_mem_nil, or_false] at h
      rcases h with h | h <;> exact ten_ne_ofNat (by omega) h
    · split at h
      · simp only [List.mem_cons, List.not_mem_nil, or_false] at h
        rcases h with h | h | h <;> exact ten_ne_ofNat (by omega) h
      · simp only [List.mem_cons, List.not_mem_nil, or_false] at h
        rcases h with h | h | h | h <;> exact ten_ne_ofNat (by omega) h

/-- **The octets of a text end a line where the text does.** -/
theorem newline_mem_ofString {s : String} (h : 10 ∈ ofString s) : '\n' ∈ s.toList := by
  rw [ofString_eq_flatMap] at h
  obtain ⟨c, hc, hmem⟩ := List.mem_flatMap.mp h
  exact eq_newline_of_mem hmem ▸ hc

end Distill.Bytes
