import Distill.Json.Printer
import Distill.Json.Reader

/-!
# Numbers and strings inside texts

A number or a string that is read at the end of a text is read in the same way in front of
what may stand behind a value.

## Main definitions

* `Json.Stops` — what may stand behind a value in a text that was printed.
* `Number.ReadsBack` — a number that is read as it was printed.

## Main statements

* `Number.read_append` — numbers in front of something.
* `Json.readString_append` — a string that was printed is read back.
-/

namespace Distill

/-- What may stand behind a value in a text that was printed. -/
def Json.Stops (rest : List Char) : Prop :=
  ∀ c ∈ rest.head?, c = ',' ∨ c = ']' ∨ c = '}' ∨ c = '\n'

namespace Number

open Json (Stops)

variable {neg : Bool} {s : Scaled} {cs rest left : List Char} {n : Number}

/-- A number that is read as it was printed. -/
def ReadsBack (n : Number) : Prop := read n.text.toList = some (n, [])

/-! ## Numbers -/

/-- Digits do not go on behind a value. -/
theorem spanDigits_append (hrest : Stops rest) (cs : List Char) :
    spanDigits (cs ++ rest) = ((spanDigits cs).1, (spanDigits cs).2 ++ rest) := by
  induction cs with
  | nil =>
      cases rest with
      | nil => rfl
      | cons c rest =>
          have hc : c.isDigit = false := by
            rcases hrest c rfl with rfl | rfl | rfl | rfl <;> decide
          simp [spanDigits, hc]
  | cons c cs ih =>
      simp only [spanDigits, Prod.mk.injEq] at ih
      by_cases hc : c.isDigit = true
      · simp [spanDigits, hc, ih.1, ih.2]
      · simp [spanDigits, hc]

/-- An exponent after its sign. -/
private def readPower (neg : Bool) (s : Scaled) (down : Bool) (cs : List Char) :
    Option (Number × List Char) :=
  let (ds, rest) := spanDigits cs
  if ds.isEmpty then none
  else
    let e := digitsValue ds
    if maxExponent < e then
      if s.significand ≠ 0 ∧ !down then none else some (.real (Double.zero neg), rest)
    else
      let e : Int := if down then -e else e
      (Scaled.toDouble? neg ⟨s.significand, s.exponent + e⟩).map fun x => (.real x, rest)

private theorem readExponent_minus {c : Char} (hc : c = 'e' ∨ c = 'E') (cs : List Char) :
    readExponent neg s (c :: '-' :: cs) = readPower neg s true cs := if_pos hc

private theorem readExponent_plus {c : Char} (hc : c = 'e' ∨ c = 'E') (cs : List Char) :
    readExponent neg s (c :: '+' :: cs) = readPower neg s false cs := if_pos hc

private theorem readExponent_of_ne {c d : Char} (hc : c = 'e' ∨ c = 'E') (hminus : d ≠ '-')
    (hplus : d ≠ '+') (cs : List Char) :
    readExponent neg s (c :: d :: cs) = readPower neg s false (d :: cs) := by
  simp only [readExponent, if_pos hc, readPower]
  split
  · next heq => exact absurd (List.cons.inj heq).1 hminus
  · next heq => exact absurd (List.cons.inj heq).1 hplus
  · rfl

private theorem readPower_append {down : Bool} (hrest : Stops rest)
    (h : readPower neg s down cs = some (n, left)) :
    readPower neg s down (cs ++ rest) = some (n, left ++ rest) := by
  rw [readPower] at h ⊢
  rw [spanDigits_append hrest]
  generalize spanDigits cs = span at h
  obtain ⟨ds, cs⟩ := span
  simp only at h ⊢
  split at h
  · simp at h
  · next hds =>
    rw [if_neg hds]
    split at h
    · next hbig =>
      rw [if_pos hbig]
      split at h
      · simp at h
      · next hzero =>
        rw [if_neg hzero]
        simp only [Option.some.injEq, Prod.mk.injEq] at h ⊢
        exact ⟨h.1, by rw [h.2]⟩
    · next hbig =>
      rw [if_neg hbig]
      simp only [Option.map_eq_some_iff, Prod.mk.injEq] at h ⊢
      obtain ⟨x, hx, hn, hleft⟩ := h
      exact ⟨x, hx, hn, by rw [hleft]⟩

/-- An exponent does not go on behind a value. -/
theorem readExponent_append (hrest : Stops rest) (h : readExponent neg s cs = some (n, left)) :
    readExponent neg s (cs ++ rest) = some (n, left ++ rest) := by
  cases cs with
  | nil =>
      simp only [readExponent, Option.map_eq_some_iff, Prod.mk.injEq] at h
      obtain ⟨x, hx, rfl, rfl⟩ := h
      cases rest with
      | nil => simp [readExponent, hx]
      | cons c rest =>
          have hc : ¬ (c = 'e' ∨ c = 'E') := by
            rcases hrest c rfl with rfl | rfl | rfl | rfl <;> decide
          simp [readExponent, hx, hc]
  | cons c cs =>
      by_cases hc : c = 'e' ∨ c = 'E'
      · cases cs with
        | nil => simp [readExponent, hc, spanDigits] at h
        | cons d ds =>
            by_cases hminus : d = '-'
            · subst hminus
              rw [readExponent_minus hc] at h
              exact (readExponent_minus hc _).trans (readPower_append hrest h)
            · by_cases hplus : d = '+'
              · subst hplus
                rw [readExponent_plus hc] at h
                exact (readExponent_plus hc _).trans (readPower_append hrest h)
              · rw [readExponent_of_ne hc hminus hplus] at h
                exact (readExponent_of_ne hc hminus hplus _).trans (readPower_append hrest h)
      · simp only [readExponent, if_neg hc, Option.map_eq_some_iff, Prod.mk.injEq] at h
        obtain ⟨x, hx, rfl, rfl⟩ := h
        simp only [List.cons_append, readExponent, if_neg hc, hx, Option.map_some]

/-- What stands behind a value does not look like the rest of a number. -/
private theorem head?_append_iff {c : Char} (hrest : Stops rest)
    (hc : c = '.' ∨ c = 'e' ∨ c = 'E') : (cs ++ rest).head? = some c ↔ cs.head? = some c := by
  cases cs with
  | cons d cs => rfl
  | nil =>
      cases rest with
      | nil => rfl
      | cons d rest =>
          simp only [List.nil_append, List.head?_cons, List.head?_nil, Option.some.injEq]
          rcases hrest d rfl with rfl | rfl | rfl | rfl <;> rcases hc with rfl | rfl | rfl <;> decide

/-- A number after its integral part, when there is no fraction. -/
private def readWhole (neg : Bool) (s : Scaled) (fits : Bool) (cs : List Char) :
    Option (Number × List Char) :=
  if cs.head? = some 'e' ∨ cs.head? = some 'E' ∨ !fits then readExponent neg s cs
  else if !neg then some (.int s.significand, cs)
  else if s.significand = 0 ∨ Nat.pow 2 63 < s.significand then
    some (.real { Double.ofInt s.significand with neg := true }, cs)
  else some (.int (-s.significand), cs)

private theorem readWhole_append {fits : Bool} (hrest : Stops rest)
    (h : readWhole neg s fits cs = some (n, left)) :
    readWhole neg s fits (cs ++ rest) = some (n, left ++ rest) := by
  have hsmall : (cs ++ rest).head? = some 'e' ↔ cs.head? = some 'e' :=
    head?_append_iff hrest (by simp)
  have hlarge : (cs ++ rest).head? = some 'E' ↔ cs.head? = some 'E' :=
    head?_append_iff hrest (by simp)
  have hdone : ∀ {m : Number}, some (m, cs) = some (n, left) →
      some (m, cs ++ rest) = some (n, left ++ rest) := by
    intro m hm
    obtain ⟨rfl, rfl⟩ := Prod.mk.inj (Option.some.inj hm)
    rfl
  rw [readWhole] at h ⊢
  simp only [hsmall, hlarge]
  split at h
  · next hexp =>
    rw [if_pos hexp]
    exact readExponent_append hrest h
  · next hexp =>
    rw [if_neg hexp]
    split at h
    · next hneg =>
      rw [if_pos hneg]
      exact hdone h
    · next hneg =>
      rw [if_neg hneg]
      split at h
      · next hzero =>
        rw [if_pos hzero]
        exact hdone h
      · next hzero =>
        rw [if_neg hzero]
        exact hdone h

/-- An integral part does not go on behind a value. -/
theorem readUnsigned_append (hrest : Stops rest) (h : readUnsigned neg cs = some (n, left)) :
    readUnsigned neg (cs ++ rest) = some (n, left ++ rest) := by
  rw [readUnsigned] at h ⊢
  rw [spanDigits_append hrest]
  generalize spanDigits cs = span at h
  obtain ⟨ds, cs⟩ := span
  simp only at h ⊢
  by_cases hds : ds.isEmpty = true ∨ 1 < ds.length ∧ ds.head? = some '0'
  · rw [if_pos hds] at h
    simp at h
  · rw [if_neg hds] at h ⊢
    generalize takeIntegral 0 ds = integral at h
    obtain ⟨s, fits⟩ := integral
    simp only at h ⊢
    split at h
    · next fs =>
      rw [List.cons_append]
      simp only
      rw [spanDigits_append hrest]
      split at h
      · simp at h
      · next hfs =>
        rw [if_neg hfs]
        exact readExponent_append hrest h
    · next hpoint =>
      split
      · next fs hcs =>
        have hpoint' := (head?_append_iff hrest (Or.inl rfl)).mp (by rw [hcs]; rfl)
        cases cs with
        | nil => simp at hpoint'
        | cons d cs =>
            obtain rfl := Option.some.inj hpoint'
            exact absurd rfl (hpoint cs)
      · exact readWhole_append hrest h

/-- **A number that is read in front of nothing is read in front of whatever may stand behind
a value.** -/
theorem read_append (hrest : Stops rest) (h : read cs = some (n, left)) :
    read (cs ++ rest) = some (n, left ++ rest) := by
  cases cs with
  | nil => simp [read, readUnsigned, spanDigits] at h
  | cons c cs =>
      by_cases hc : c = '-'
      · subst hc
        exact readUnsigned_append hrest h
      · have hread : ∀ cs, read (c :: cs) = readUnsigned false (c :: cs) := by
          intro cs
          simp [read, hc]
        rw [List.cons_append, hread]
        rw [hread] at h
        exact readUnsigned_append hrest h

/-- A number starts with a digit or a sign. -/
theorem start_of_read {c : Char} {x : Number × List Char} (h : read (c :: cs) = some x) :
    c = '-' ∨ c.isDigit = true := by
  by_cases hc : c = '-'
  · exact Or.inl hc
  · refine Or.inr ?_
    cases hdigit : c.isDigit with
    | true => rfl
    | false => simp [read, readUnsigned, spanDigits, hdigit, hc] at h

end Number

namespace Json

variable {c : Char} {rest : List Char}

/-! ## Strings -/

private theorem hexValue?_hexDigit : ∀ n < 16, hexValue? (hexDigit n) = some n := by decide

/-- An escape of four hexadecimal digits. -/
private theorem hex4?_control (hc : c.toNat < 0x20) :
    hex4? '0' '0' (hexDigit (c.toNat / 16)) (hexDigit (c.toNat % 16)) = some c.toNat := by
  have hhigh := hexValue?_hexDigit (c.toNat / 16) (by omega)
  have hlow := hexValue?_hexDigit (c.toNat % 16) (by omega)
  have hzero : hexValue? '0' = some 0 := by decide
  simp only [hex4?, hzero, hhigh, hlow, Option.bind_eq_bind, Option.bind_some, pure]
  congr 1
  omega

/-- A character that was printed inside quotes is read back. -/
theorem readChars_escapeChar (fuel : Nat) (c : Char) (rest : List Char) :
    readChars (fuel + 1) (escapeChar c ++ rest) =
      (readChars fuel rest).map fun (cs, rest) => (c :: cs, rest) := by
  rw [escapeChar]
  split
  · next h => subst h; rfl
  split
  · next h => subst h; rfl
  split
  · next h => subst h; rfl
  split
  · next h => subst h; rfl
  split
  · next h => subst h; rfl
  split
  · next h => subst h; rfl
  split
  · next h => subst h; rfl
  split
  · next hc =>
    have hlow : ¬ (0xDC00 ≤ c.toNat ∧ c.toNat ≤ 0xDFFF) := by omega
    have hhigh : ¬ (0xD800 ≤ c.toNat ∧ c.toNat ≤ 0xDBFF) := by omega
    simp only [List.cons_append, List.nil_append, readChars, hex4?_control hc, Option.bind_some,
      if_neg hlow, if_neg hhigh, Char.ofNat_toNat]
  · next hquote hslash _ _ _ _ _ hc =>
    rw [List.cons_append, List.nil_append]
    simp [readChars, hslash, hc]

theorem readChars_append (s : List Char) (rest : List Char) {fuel : Nat} (h : s.length < fuel) :
    readChars fuel (s.flatMap escapeChar ++ '"' :: rest) = some (s, rest) := by
  induction s generalizing fuel with
  | nil =>
      obtain ⟨fuel, rfl⟩ := Nat.exists_eq_add_of_lt h
      rfl
  | cons c s ih =>
      cases fuel with
      | zero => simp at h
      | succ fuel =>
          rw [List.flatMap_cons, List.append_assoc, readChars_escapeChar,
            ih (by simpa using h)]
          rfl

theorem length_escapeChar_pos (c : Char) : 0 < (escapeChar c).length := by
  rw [escapeChar]
  repeat' split
  all_goals simp

theorem length_le_flatMap_escapeChar (s : List Char) :
    s.length ≤ (s.flatMap escapeChar).length := by
  induction s with
  | nil => simp
  | cons c s ih =>
      have hc := length_escapeChar_pos c
      rw [List.flatMap_cons, List.length_append, List.length_cons]
      omega

/-- **A string that was printed is read back,** whatever stands behind it. -/
theorem readString_append (s : String) (rest : List Char) :
    readString (s.toList.flatMap escapeChar ++ '"' :: rest) = some (s, rest) := by
  have hlen := length_le_flatMap_escapeChar s.toList
  rw [readString, readChars_append]
  · simp
  · simp only [List.length_append, List.length_cons]
    omega

end Json

end Distill
