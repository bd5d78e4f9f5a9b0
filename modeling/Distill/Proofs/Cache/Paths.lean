import Distill.Proofs.Cache.Entries

/-!
# Paths of a cache

A name becomes a component of a path that no system takes for anything but a name: it is ASCII, it
is not empty, no character of it separates components or ends a text, and it does not start with a
point. The other names in a cache are of this kind as well, so that every path below the root of a
cache is the path of the root with names behind it, and these names can be read back from its text.
Two paths are then the same text only if all their names are the same.

## Main definitions

* `Cache.IsSafe` — the names that are safe as components.
* `Cache.StrictlyBelow` — a path goes on behind a root with safe names.

## Main statements

* `Cache.isSafe_encodeName` — the component of any name is safe.
* `Cache.intercalate_inj` — the text of a path determines its names.
* `Cache.paths_are_safe_and_unique` — what follows for the files of a cache.
-/

namespace Distill.Cache

open FileTree (IsOrdinary)

/-! ## Safe names -/

/-- A character that neither separates the components of a path nor ends it. -/
def IsSafeChar (ch : Char) : Prop := ch.toNat < 128 ∧ ch ≠ '/' ∧ ch ≠ '\x00'

instance (ch : Char) : Decidable (IsSafeChar ch) := inferInstanceAs (Decidable (_ ∧ _ ∧ _))

/-- Whether a text has safe characters only can be computed from its characters. -/
theorem isSafeChars_of_all {text : String} (h : text.toList.all (IsSafeChar ·) = true) :
    ∀ ch ∈ text.toList, IsSafeChar ch := by
  intro ch hch
  exact of_decide_eq_true (List.all_eq_true.mp h ch hch)

/-- A name that is safe as a component of a path. -/
structure IsSafe (name : String) : Prop where
  nonempty : name ≠ ""
  chars : ∀ ch ∈ name.toList, IsSafeChar ch
  start : name.toList.head? ≠ some '.'

variable {name ending : String} {names others : List String}

/-- A safe name leads to an entry of this name. -/
theorem IsSafe.isOrdinary (h : IsSafe name) : IsOrdinary name := by
  constructor
  · rintro rfl
    exact h.start rfl
  · rintro rfl
    exact h.start rfl

theorem IsSafe.slash_notMem (h : IsSafe name) : '/' ∉ name.toList := by
  intro hmem
  exact (h.chars '/' hmem).2.1 rfl

/-- A safe name with safe characters behind it is safe. -/
theorem IsSafe.append (h : IsSafe name) (hending : ∀ ch ∈ ending.toList, IsSafeChar ch) :
    IsSafe (name ++ ending) := by
  have hne : name.toList ≠ [] := by simpa using h.nonempty
  constructor
  · simp [h.nonempty]
  · intro ch hch
    rw [String.toList_append, List.mem_append] at hch
    rcases hch with hch | hch
    · exact h.chars ch hch
    · exact hending ch hch
  · rw [String.toList_append, List.head?_append_of_ne_nil _ hne]
    exact h.start

/-! ## Components -/

/-- An octet that stands for itself is a safe character. -/
theorem isSafeChar_of_isPlain {first : Bool} {b : UInt8} (h : isPlain first b = true) :
    IsSafeChar (Char.ofNat b.toNat) := by
  have hnat := toNat_ofNat_octet b
  simp only [isPlain] at h
  generalize Char.ofNat b.toNat = ch at h hnat
  simp only [Bool.or_eq_true, Bool.and_eq_true, decide_eq_true_eq, beq_iff_eq,
    UInt8.lt_iff_toNat_lt] at h
  rcases h with ((⟨hlt, halpha⟩ | rfl) | rfl) | ⟨rfl, -⟩
  · refine ⟨hnat ▸ hlt, ?_, ?_⟩
    · rintro rfl
      exact absurd halpha (by decide)
    · rintro rfl
      exact absurd halpha (by decide)
  · decide
  · decide
  · decide

theorem isSafeChar_upperHex : ∀ n < 16, IsSafeChar (upperHex n) := by decide

/-- **An octet is written in safe characters.** -/
theorem isSafeChar_of_mem_encodeOctet {first : Bool} {b : UInt8} :
    ∀ ch ∈ encodeOctet first b, IsSafeChar ch := by
  have hb := b.toNat_lt
  intro ch hch
  rw [encodeOctet] at hch
  split at hch
  · next hplain =>
    rw [List.mem_singleton.mp hch]
    exact isSafeChar_of_isPlain hplain
  · simp only [List.mem_cons, List.not_mem_nil, or_false] at hch
    rcases hch with rfl | rfl | rfl
    · decide
    · exact isSafeChar_upperHex _ (by omega)
    · exact isSafeChar_upperHex _ (by omega)

theorem isSafeChar_of_mem_encodeOctets (s : Bytes) : ∀ ch ∈ encodeOctets s, IsSafeChar ch := by
  cases s with
  | nil => simp [encodeOctets, IsSafeChar]
  | cons b rest =>
      intro ch hch
      rw [encodeOctets, List.mem_append, List.mem_flatMap] at hch
      rcases hch with hch | ⟨b', -, hch⟩
      · exact isSafeChar_of_mem_encodeOctet ch hch
      · exact isSafeChar_of_mem_encodeOctet ch hch

/-- **The component of any name is safe.** -/
theorem isSafe_encodeName (name : String) : IsSafe (encodeName name) := by
  obtain ⟨ch, rest, hcons, hpoint⟩ := exists_encodeOctets_eq_cons (Bytes.ofString name)
  have hlist : (encodeName name).toList = encodeOctets (Bytes.ofString name) := by
    rw [encodeName, String.toList_ofList]
  constructor
  · intro hempty
    rw [hempty, hcons] at hlist
    simp at hlist
  · rw [hlist]
    exact isSafeChar_of_mem_encodeOctets _
  · rw [hlist, hcons]
    simpa using hpoint

/-- **All names on the way to a file of a cache are safe.** -/
theorem isSafe_of_mem_artifactPath (archive node : String) :
    ∀ name ∈ artifactPath archive node, IsSafe name := by
  have hnode : IsSafe (artifactName node) :=
    (isSafe_encodeName node).append (isSafeChars_of_all (by decide))
  have hartifacts : IsSafe "artifacts" := ⟨by decide, isSafeChars_of_all (by decide), by decide⟩
  simp [artifactPath_eq, isSafe_encodeName, hartifacts, hnode]

theorem isSafe_of_mem_conclusionsPath (archive : String) :
    ∀ name ∈ conclusionsPath archive, IsSafe name := by
  have hconclusions : IsSafe "conclusions.json" :=
    ⟨by decide, isSafeChars_of_all (by decide), by decide⟩
  simp [conclusionsPath_eq, isSafe_encodeName, hconclusions]

/-! ## Texts of paths -/

/-- A path goes on behind a root with safe names, and so leads to a place below it. -/
def StrictlyBelow (root path : String) : Prop :=
  ∃ names, names ≠ [] ∧ (∀ name ∈ names, IsSafe name) ∧ path = "/".intercalate (root :: names)

/-- The names behind a root without the text of the root, each with a slash in front of it. -/
theorem toList_intercalate_cons (root : String) (names : List String) :
    ("/".intercalate (root :: names)).toList =
      root.toList ++ names.flatMap fun name => '/' :: name.toList := by
  rw [String.toList_intercalate]
  induction names generalizing root with
  | nil => simp
  | cons name rest ih =>
      rw [List.map_cons, List.intercalate_cons_of_ne_nil (by simp), ih name]
      simp

/-- **The text of a path determines the names in it.** -/
theorem intercalate_inj {root : String} (hnames : ∀ name ∈ names, IsSafe name)
    (hothers : ∀ name ∈ others, IsSafe name) :
    "/".intercalate (root :: names) = "/".intercalate (root :: others) ↔ names = others := by
  have hsplit : ∀ ns : List String, (∀ name ∈ ns, IsSafe name) →
      (("/".intercalate ("" :: ns)).toList.splitOn '/') = ("" :: ns).map String.toList := by
    intro ns hns
    rw [String.toList_intercalate]
    refine List.splitOn_intercalate '/' ?_ (by simp)
    simpa using fun name hname => (hns name hname).slash_notMem
  constructor
  · intro h
    have hlist := congrArg String.toList h
    rw [toList_intercalate_cons, toList_intercalate_cons, List.append_cancel_left_eq] at hlist
    -- Without the root the two texts are still the same, and they have no slash but between names.
    have hempty : ("/".intercalate ("" :: names)).toList =
        ("/".intercalate ("" :: others)).toList := by
      rw [toList_intercalate_cons, toList_intercalate_cons, hlist]
    have hparts := congrArg (List.splitOn '/') hempty
    rw [hsplit names hnames, hsplit others hothers, List.map_cons, List.map_cons] at hparts
    exact List.map_injective_iff.mpr (fun _ _ => String.toList_inj.mp) (List.cons.inj hparts).2
  · rintro rfl
    rfl

/-- **Components and paths are safe and unique.** The component of any name is not empty, it is
ASCII without slashes and NUL, and it does not start with a point, so that it is neither `.` nor
`..`; different names have different components. The file of a node stands strictly below the root
of the cache. Its path is that of no other archive or node, and that of the conclusions of no
archive. -/
theorem paths_are_safe_and_unique :
    (∀ name, encodeName name ≠ "" ∧
      (∀ ch ∈ (encodeName name).toList, ch.toNat < 128 ∧ ch ≠ '/' ∧ ch ≠ '\x00') ∧
      (encodeName name).toList.head? ≠ some '.' ∧ encodeName name ≠ "." ∧ encodeName name ≠ "..") ∧
    (∀ name other, encodeName name = encodeName other ↔ name = other) ∧
    ∀ (c : Cache) (archive node : String),
      StrictlyBelow c.location (c.shown (artifactPath archive node)) ∧
      (∀ archive' node',
        c.shown (artifactPath archive node) = c.shown (artifactPath archive' node') ↔
          archive = archive' ∧ node = node') ∧
      ∀ archive', c.shown (artifactPath archive node) ≠ c.shown (conclusionsPath archive') := by
  refine ⟨fun name => ?_, fun name other => ?_, fun c archive node => ⟨?_, fun archive' node' => ?_,
    fun archive' => ?_⟩⟩
  · have hsafe := isSafe_encodeName name
    exact ⟨hsafe.nonempty, hsafe.chars, hsafe.start, hsafe.isOrdinary⟩
  · exact ⟨encodeName_injective, congrArg encodeName⟩
  · exact ⟨artifactPath archive node, by simp [artifactPath_eq],
      isSafe_of_mem_artifactPath archive node, rfl⟩
  · rw [shown, shown, intercalate_inj (isSafe_of_mem_artifactPath _ _)
      (isSafe_of_mem_artifactPath _ _), artifactPath_inj]
  · intro h
    have hnames := (intercalate_inj (isSafe_of_mem_artifactPath _ _)
      (isSafe_of_mem_conclusionsPath _)).mp h
    exact conclusionsPath_ne_artifactPath hnames.symm

/-- An archive whose name leads upwards, one with the name that is written for it, and a node with a
slash in its name. -/
theorem points_paths_are_safe_and_unique :
    encodeName ".." = "%2E." ∧ encodeName "%2E." ≠ encodeName ".." ∧
      '%' ∈ (encodeName "..").toList ∧ '%'.toNat < 128 ∧
      StrictlyBelow "/cache" "/cache/%2E./artifacts/a%2Fb.artifact" ∧
      (fresh "/cache").shown (artifactPath ".." "a/b") ≠
        (fresh "/cache").shown (artifactPath "%2E." "a/b") := by
  obtain ⟨hsafe, hinj, hpaths⟩ := paths_are_safe_and_unique
  obtain ⟨hbelow, hunique, -⟩ := hpaths (fresh "/cache") ".." "a/b"
  have hpercent : '%' ∈ (encodeName "..").toList := by decide +kernel
  have hshown : (fresh "/cache").shown (artifactPath ".." "a/b") =
      "/cache/%2E./artifacts/a%2Fb.artifact" := by decide +kernel
  refine ⟨by decide +kernel, mt (hinj "%2E." "..").mp (by decide), hpercent,
    ((hsafe "..").2.1 '%' hpercent).1, hshown ▸ hbelow, fun h => ?_⟩
  exact absurd ((hunique "%2E." "a/b").mp h).1 (by decide)

end Distill.Cache
