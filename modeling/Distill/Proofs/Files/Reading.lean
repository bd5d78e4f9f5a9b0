import Distill.Proofs.Cache.Name
import Distill.Proofs.Files.Atomic

/-!
# Reading without links

A path of ordinary names on which no link stands leads where it says, and nowhere when a
name on it is too long.

## Main definitions

* `FileTree.Direct` — no link stands on the way to a path.

## Main statements

* `FileTree.read_eq_ok_iff` — what is read is what stands there.
* `FileTree.resolve_eq_ok` — the path is resolved to itself.
* `FileTree.locate_eq_resolve` — the entry that it names is no other.
-/

namespace Distill

namespace FileTree

variable {t : FileTree} {here path rest : List String} {content : Bytes}

/-- No link stands at a path or on the way to it. -/
def Direct (t : FileTree) (path : List String) : Prop :=
  ∀ q, q <+: path → ∀ target, t.look q ≠ some (.link target)

/-- A way without links comes to the end or fails. -/
theorem walk_eq_ok {s : Stretch} (hordinary : ∀ name ∈ rest, IsOrdinary name)
    (hdirect : t.Direct (here ++ rest)) (h : walk t here rest = .ok s) :
    s = .arrived (here ++ rest) ∧ ∀ name ∈ rest, IsShort name := by
  induction rest generalizing here with
  | nil =>
      rw [walk, Except.ok.injEq] at h
      rw [← h, List.append_nil]
      exact ⟨rfl, by simp⟩
  | cons name rest ih =>
      obtain ⟨hpoint, hpoints⟩ := hordinary name (by simp)
      have hassoc : here ++ name :: rest = here ++ [name] ++ rest := by simp
      rw [walk, if_neg hpoint, if_neg hpoints] at h
      split at h
      · simp at h
      · next hshort =>
        have hname : IsShort name := Nat.not_lt.mp hshort
        split at h
        · simp at h
        · split at h
          · next hrest =>
            obtain rfl : rest = [] := by simpa using hrest
            rw [← Except.ok.inj h]
            exact ⟨rfl, by simpa using hname⟩
          · simp at h
        · next target hlink =>
          refine absurd ?_ (hdirect (here ++ [name]) (hassoc ▸ List.prefix_append _ _) target)
          rw [look, hlink]
          rfl
        · rw [hassoc] at hdirect ⊢
          obtain ⟨hs, hrest⟩ := ih (fun n hn => hordinary n (by simp [hn])) hdirect h
          exact ⟨hs, by simpa using ⟨hname, hrest⟩⟩

/-- The way to anything but a link comes to its end. -/
theorem walk_of_look {e : Entry} (hordinary : ∀ name ∈ rest, IsOrdinary name)
    (hshort : ∀ name ∈ rest, IsShort name) (hlook : t.look (here ++ rest) = some e)
    (he : ∀ target, e ≠ .link target) : walk t here rest = .ok (.arrived (here ++ rest)) := by
  induction rest generalizing here with
  | nil => rw [walk, List.append_nil]
  | cons name rest ih =>
      obtain ⟨hpoint, hpoints⟩ := hordinary name (by simp)
      have hname : ¬ maxNameLength < name.utf8ByteSize := Nat.not_lt.mpr (hshort name (by simp))
      have hassoc : here ++ name :: rest = here ++ [name] ++ rest := by simp
      have htail := ih (fun n hn => hordinary n (by simp [hn]))
        (fun n hn => hshort n (by simp [hn])) (hassoc ▸ hlook)
      rw [hassoc] at hlook ⊢
      rw [walk, if_neg hpoint, if_neg hpoints, if_neg hname]
      by_cases hrest : rest = []
      · subst hrest
        rw [List.append_nil, look, Option.map_eq_some_iff] at hlook
        obtain ⟨f, hf, rfl⟩ := hlook
        rw [hf, List.append_nil]
        cases f with
        | file content => rfl
        | link target => exact absurd rfl (he target)
        | directory es => rw [walk]
      · have hdir := hasDirectory_iff.mpr (look_of_append hlook hrest)
        rw [hasDirectory] at hdir
        split at hdir
        · next es hes =>
          rw [hes]
          exact htail
        · simp at hdir

/-- What stands at a path is found when its names are not too long. -/
theorem resolve_of_look {e : Entry} (hordinary : ∀ name ∈ path, IsOrdinary name)
    (hshort : ∀ name ∈ path, IsShort name) (hlook : t.look path = some e)
    (he : ∀ target, e ≠ .link target) : t.resolve path = .ok path := by
  have hwalk : walk t [] path = .ok (.arrived path) := walk_of_look hordinary hshort hlook he
  rw [resolve, resolveFrom, hwalk]

/-- **A path is resolved to itself.** -/
theorem resolve_eq_ok (hordinary : ∀ name ∈ path, IsOrdinary name) (hdirect : t.Direct path)
    {there : List String} (h : t.resolve path = .ok there) :
    there = path ∧ ∀ name ∈ path, IsShort name := by
  rw [resolve, resolveFrom] at h
  split at h
  · simp at h
  · next p hwalk =>
    obtain ⟨heq, hshort⟩ := walk_eq_ok hordinary hdirect hwalk
    rw [← Except.ok.inj h]
    exact ⟨Stretch.arrived.inj heq, hshort⟩
  · next hwalk =>
    have heq := (walk_eq_ok hordinary hdirect hwalk).1
    simp at heq

/-- A way without links goes on behind a directory, and nowhere behind anything else. -/
theorem walk_concat {name : String} (hordinary : ∀ n ∈ rest, IsOrdinary n)
    (hdirect : t.Direct (here ++ rest)) (hhere : t.hasDirectory here = true) :
    walk t here (rest ++ [name]) = (walk t here rest).bind fun _ =>
      if t.hasDirectory (here ++ rest) then walk t (here ++ rest) [name]
      else .error .notDirectory := by
  induction rest generalizing here with
  | nil => simp [walk, Except.bind, hhere]
  | cons first rest ih =>
      obtain ⟨hpoint, hpoints⟩ := hordinary first (by simp)
      have hassoc : here ++ first :: rest = here ++ [first] ++ rest := by simp
      rw [List.cons_append, walk, walk, if_neg hpoint, if_neg hpoints, if_neg hpoint,
        if_neg hpoints]
      by_cases hlong : maxNameLength < first.utf8ByteSize
      · rw [if_pos hlong, if_pos hlong]
        rfl
      · rw [if_neg hlong, if_neg hlong]
        cases hentry : t.entry? (here ++ [first]) with
        | none => rfl
        | some e =>
            cases e with
            | file content =>
                cases rest with
                | nil => simp [Except.bind, hasDirectory, hentry]
                | cons second rest => simp [Except.bind]
            | link target =>
                refine absurd ?_ (hdirect (here ++ [first]) (hassoc ▸ List.prefix_append _ _) target)
                rw [look, hentry]
                rfl
            | directory es =>
                rw [hassoc] at hdirect ⊢
                exact ih (fun n hn => hordinary n (by simp [hn])) hdirect
                  (by rw [hasDirectory, hentry])

/-- Where a path leads without links. -/
theorem resolve_eq_walk (hordinary : ∀ name ∈ path, IsOrdinary name) (hdirect : t.Direct path) :
    t.resolve path = (walk t [] path).map fun _ => path := by
  rw [resolve, resolveFrom]
  cases hwalk : walk t [] path with
  | error e => rfl
  | ok s =>
      obtain ⟨rfl, -⟩ := walk_eq_ok hordinary hdirect hwalk
      rfl

/-- **Without links, an entry is where its path leads.** -/
theorem locate_eq_resolve (hordinary : ∀ name ∈ path, IsOrdinary name) (hdirect : t.Direct path)
    (hpath : path ≠ []) : t.locate path = t.resolve path := by
  obtain ⟨directory, name, rfl⟩ := path.eq_nil_or_concat'.resolve_left hpath
  have habove : ∀ n ∈ directory, IsOrdinary n := fun n hn => hordinary n (by simp [hn])
  have hbefore : t.Direct directory := fun q hq => hdirect q (hq.trans (List.prefix_append _ _))
  have hroot : t.hasDirectory [] = true := rfl
  rw [resolve_eq_walk hordinary hdirect, walk_concat habove hbefore hroot, locate,
    List.dropLast_concat, List.getLastD_concat, resolve_eq_walk habove hbefore, List.nil_append]
  cases walk t [] directory with
  | error e => rfl
  | ok s =>
      cases hdir : t.hasDirectory directory with
      | false => simp [Except.map, Except.bind, bind, hdir, throw, throwThe, MonadExceptOf.throw]
      | true =>
          cases hwalk : walk t directory [name] with
          | error e => simp [Except.map, Except.bind, bind, hdir, hwalk]
          | ok s =>
              obtain ⟨rfl, -⟩ := walk_eq_ok (by simpa using hordinary name (by simp)) hdirect hwalk
              simp [Except.map, Except.bind, bind, hdir, hwalk, pure, Except.pure]

/-- **What is read is the file that stands at the path.** -/
theorem read_eq_ok_iff (hordinary : ∀ name ∈ path, IsOrdinary name) (hdirect : t.Direct path) :
    t.read path = .ok content ↔
      t.fileAt path = some content ∧ ∀ name ∈ path, IsShort name := by
  constructor
  · intro h
    cases hresolve : t.resolve path with
    | error e => simp [read, hresolve, bind, Except.bind] at h
    | ok there =>
        obtain ⟨rfl, hshort⟩ := resolve_eq_ok hordinary hdirect hresolve
        refine ⟨?_, hshort⟩
        simp only [read, hresolve, bind, Except.bind] at h
        split at h
        · next b hb =>
          rw [← Except.ok.inj h]
          exact fileAt_eq_some_iff.mpr (entry?_eq_file_iff.mp hb)
        · simp [throw, throwThe, MonadExceptOf.throw] at h
        · simp [throw, throwThe, MonadExceptOf.throw] at h
        · simp [throw, throwThe, MonadExceptOf.throw] at h
  · rintro ⟨hfile, hshort⟩
    have hlook := fileAt_eq_some_iff.mp hfile
    have hresolve := resolve_of_look hordinary hshort hlook (by simp)
    simp only [read, hresolve, bind, Except.bind, entry?_eq_file_iff.mpr hlook]
    rfl

end FileTree

end Distill
