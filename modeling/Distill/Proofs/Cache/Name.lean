import Distill.Cache.Basic

/-!
# Names of files of a cache

Different names have different files: the component of a path that stands for a name can
be read back, octet by octet. No component is a special one.

## Main statements

* `Cache.encodeName_injective`, `Cache.artifactName_injective` — different names have
  different components.
* `Cache.isOrdinary_encodeName` — a component is neither `.` nor `..`.
-/

namespace Distill

/-- The UTF-8 form of a text determines it. -/
theorem Bytes.ofString_injective {s t : String} (h : ofString s = ofString t) : s = t := by
  simp only [ofString, String.toUTF8, Array.toList_inj] at h
  rw [← String.toByteArray_inj]
  exact ByteArray.ext h

/-- A component of a path that leads to an entry of its name. -/
def FileTree.IsOrdinary (name : String) : Prop := name ≠ "." ∧ name ≠ ".."

namespace Cache

variable {a b : UInt8} {first : Bool}

theorem toNat_ofNat_octet (a : UInt8) : (Char.ofNat a.toNat).toNat = a.toNat := by
  have hvalid : a.toNat.isValidChar := Or.inl (Nat.lt_trans a.toNat_lt (by decide))
  rw [Char.ofNat, dif_pos hvalid]
  rfl

private theorem upperHex_injective : ∀ m < 16, ∀ n < 16, upperHex m = upperHex n → m = n := by
  decide

/-- The percent sign stands for no octet. -/
private theorem ne_percent_of_isPlain (h : isPlain first a = true) : Char.ofNat a.toNat ≠ '%' := by
  intro hpercent
  have hnat := toNat_ofNat_octet a
  rw [hpercent] at hnat
  have ha : a = 37 := UInt8.toNat_inj.mp hnat.symm
  subst ha
  cases first <;> exact absurd h (by decide)

/-- An octet at the start of the component can be read back. -/
private theorem encodeOctet_append_inj {x y : List Char}
    (h : encodeOctet first a ++ x = encodeOctet first b ++ y) : a = b ∧ x = y := by
  rw [encodeOctet, encodeOctet] at h
  split at h <;> split at h
  · obtain ⟨hchar, hrest⟩ := List.cons.inj h
    refine ⟨UInt8.toNat_inj.mp ?_, hrest⟩
    rw [← toNat_ofNat_octet a, hchar, toNat_ofNat_octet]
  · next ha _ => exact absurd (List.cons.inj h).1 (ne_percent_of_isPlain ha)
  · next hb => exact absurd (List.cons.inj h).1.symm (ne_percent_of_isPlain hb)
  · simp only [List.cons_append, List.nil_append, List.cons.injEq, true_and] at h
    obtain ⟨hhigh, hlow, hrest⟩ := h
    have ha := a.toNat_lt
    have hb := b.toNat_lt
    have hdiv := upperHex_injective _ (by omega) _ (by omega) hhigh
    have hmod := upperHex_injective _ (by omega) _ (by omega) hlow
    exact ⟨UInt8.toNat_inj.mp (by omega), hrest⟩

private theorem encodeOctet_ne_nil (first : Bool) (a : UInt8) : encodeOctet first a ≠ [] := by
  rw [encodeOctet]
  split <;> simp

private theorem flatMap_encodeOctet_injective {s t : Bytes}
    (h : s.flatMap (encodeOctet false) = t.flatMap (encodeOctet false)) : s = t := by
  induction s generalizing t with
  | nil =>
      cases t with
      | nil => rfl
      | cons b rest => simp [encodeOctet_ne_nil] at h
  | cons a s ih =>
      cases t with
      | nil => simp [encodeOctet_ne_nil] at h
      | cons b t =>
          obtain ⟨rfl, hrest⟩ := encodeOctet_append_inj h
          rw [ih hrest]

/-- The percent sign alone stands for no octets. -/
private theorem singleton_percent_ne (rest : List Char) : ['%'] ≠ encodeOctet first a ++ rest := by
  rw [encodeOctet]
  split
  · next h =>
    intro heq
    exact ne_percent_of_isPlain h (List.cons.inj heq).1.symm
  · simp

theorem encodeOctets_injective {s t : Bytes} (h : encodeOctets s = encodeOctets t) : s = t := by
  cases s with
  | nil =>
      cases t with
      | nil => rfl
      | cons b t => exact absurd h (singleton_percent_ne _)
  | cons a s =>
      cases t with
      | nil => exact absurd h.symm (singleton_percent_ne _)
      | cons b t =>
          obtain ⟨rfl, hrest⟩ := encodeOctet_append_inj h
          rw [flatMap_encodeOctet_injective hrest]

/-- **Different names have different components.** -/
theorem encodeName_injective {s t : String} (h : encodeName s = encodeName t) : s = t :=
  Bytes.ofString_injective (encodeOctets_injective (String.ofList_injective h))

/-- A component starts with a character other than the point. -/
theorem exists_encodeOctets_eq_cons (s : Bytes) :
    ∃ c rest, encodeOctets s = c :: rest ∧ c ≠ '.' := by
  cases s with
  | nil => exact ⟨'%', [], rfl, by decide⟩
  | cons a rest =>
      rw [encodeOctets, encodeOctet]
      split
      · next h =>
        refine ⟨_, _, rfl, ?_⟩
        intro hpoint
        have hnat := toNat_ofNat_octet a
        rw [hpoint] at hnat
        have ha : a = 46 := UInt8.toNat_inj.mp hnat.symm
        subst ha
        exact absurd h (by decide)
      · exact ⟨_, _, rfl, by decide⟩

/-- A component does not start with a point. -/
theorem encodeName_append_ne (name ending : String) {s : String} {rest : List Char}
    (hs : s.toList = '.' :: rest) : encodeName name ++ ending ≠ s := by
  obtain ⟨c, tail, heq, hc⟩ := exists_encodeOctets_eq_cons (Bytes.ofString name)
  rintro rfl
  rw [String.toList_append, encodeName, String.toList_ofList, heq, List.cons_append] at hs
  exact hc (List.cons.inj hs).1

/-- **A component is neither `.` nor `..`.** -/
theorem isOrdinary_encodeName_append (name ending : String) :
    FileTree.IsOrdinary (encodeName name ++ ending) :=
  ⟨encodeName_append_ne name ending rfl,
    encodeName_append_ne name ending rfl⟩

theorem isOrdinary_encodeName (name : String) : FileTree.IsOrdinary (encodeName name) := by
  have h := isOrdinary_encodeName_append name ""
  rwa [String.append_empty] at h

theorem isOrdinary_artifactName (node : String) : FileTree.IsOrdinary (artifactName node) :=
  isOrdinary_encodeName_append node fileEnding

/-- The file of a node is known as that of an artifact. -/
theorem isArtifactName_artifactName (node : String) :
    isArtifactName (artifactName node) = true := by
  have hne : artifactName node ≠ fileEnding := encodeName_append_ne node fileEnding rfl
  have hend : (artifactName node).endsWith fileEnding = true := by
    rw [String.endsWith_eq_endsWith_toSlice, String.Slice.endsWith_string_iff]
    simp [artifactName]
  simp [isArtifactName, hne, hend]

/-- Different nodes have different files. -/
theorem artifactName_injective {s t : String} (h : artifactName s = artifactName t) : s = t := by
  refine encodeName_injective ?_
  have hlist := congrArg String.toList h
  rw [artifactName, artifactName, String.toList_append, String.toList_append] at hlist
  exact String.toList_inj.mp (List.append_cancel_right hlist)

end Cache

end Distill
