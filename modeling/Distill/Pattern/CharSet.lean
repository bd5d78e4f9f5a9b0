import Distill.Text.Basic
import Distill.Text.Case
import Distill.Text.Category

/-!
# Sets of characters

What a bracket expression, an escape or a literal of a pattern stands for.

## Main definitions

* `CharSet`, `CharSet.mem` — the sets and their members.
* `CharSet.ofProperty?`, `CharSet.ofAsciiName?` — the sets with a name.
-/

namespace Distill

/-- A set of characters. -/
inductive CharSet where
  | nothing
  /-- The characters between two code points, both included. -/
  | range (lo hi : Nat)
  | categories (cats : List Category)
  | blank
  | word
  | union (a b : CharSet)
  | inter (a b : CharSet)
  | diff (a b : CharSet)
  | symm (a b : CharSet)
  | compl (a : CharSet)
  /-- The members, and what differs from one in case only. -/
  | foldCase (a : CharSet)
  deriving Repr, Inhabited

namespace CharSet

/-- Whether a character is in a set. -/
def mem : CharSet → Char → Bool
  | nothing, _ => false
  | range lo hi, c => lo ≤ c.toNat && c.toNat ≤ hi
  | categories cats, c => hasCategory cats c
  | blank, c => isBlank c
  | word, c => isWord c
  | union a b, c => mem a c || mem b c
  | inter a b, c => mem a c && mem b c
  | diff a b, c => mem a c && !mem b c
  | symm a b, c => mem a c != mem b c
  | compl a, c => !mem a c
  | foldCase a, c => (c :: caseVariants c).any (mem a)

/-- The set of one character. -/
def single (c : Char) : CharSet := range c.toNat c.toNat

/-- Every character. -/
def any : CharSet := range 0 0x10FFFF

/-- The ASCII characters. -/
def ascii : CharSet := range 0 0x7F

/-- The union of sets. -/
def unionAll (sets : List CharSet) : CharSet := sets.foldr union nothing

/-- The union of ranges. -/
def ranges (rs : List (Char × Char)) : CharSet :=
  unionAll (rs.map fun (a, b) => range a.toNat b.toNat)

/-! ## Sets with a name -/

/-- The ASCII digits. -/
def asciiDigit : CharSet := ranges [('0', '9')]

/-- The characters of ASCII words. -/
def asciiWord : CharSet := ranges [('0', '9'), ('A', 'Z'), ('_', '_'), ('a', 'z')]

/-- The ASCII white space. -/
def asciiBlank : CharSet := ranges [('\t', '\r'), (' ', ' ')]

/-- The names of bracket classes. -/
def asciiNames : List (String × CharSet) :=
  [("alnum", ranges [('0', '9'), ('A', 'Z'), ('a', 'z')]),
   ("alpha", ranges [('A', 'Z'), ('a', 'z')]),
   ("ascii", ascii), ("blank", ranges [('\t', '\t'), (' ', ' ')]),
   ("cntrl", ranges [('\x00', '\x1F'), ('\x7F', '\x7F')]), ("digit", asciiDigit),
   ("graph", ranges [('!', '~')]), ("lower", ranges [('a', 'z')]), ("print", ranges [(' ', '~')]),
   ("punct", ranges [('!', '/'), (':', '@'), ('[', '\x60'), (Char.ofNat 0x7B, '~')]),
   ("space", asciiBlank), ("upper", ranges [('A', 'Z')]), ("word", asciiWord),
   ("xdigit", ranges [('0', '9'), ('A', 'F'), ('a', 'f')])]

/-- The bracket class of a name. -/
def ofAsciiName? (name : String) : Option CharSet := asciiNames.lookup name

/-- Alphabetic symbols that are no letters by category. -/
def letterSymbols : CharSet :=
  unionAll [range 0x24B6 0x24E9, range 0x1F130 0x1F149, range 0x1F150 0x1F169,
    range 0x1F170 0x1F189]

/-- Scripts, by their principal blocks. -/
def scripts : List (String × CharSet) :=
  [("latin", unionAll [ranges [('A', 'Z'), ('a', 'z')], single 'ª', single 'º', range 0xC0 0xD6,
      range 0xD8 0xF6, range 0xF8 0x2B8, range 0x1E00 0x1EFF, range 0x2C60 0x2C7F,
      range 0xA722 0xA787, range 0xFF21 0xFF3A, range 0xFF41 0xFF5A]),
   ("greek", unionAll [range 0x370 0x373, range 0x375 0x377, range 0x37A 0x37D, single '\u037F',
      single '\u0384', range 0x386 0x386, range 0x388 0x3E1, range 0x3F0 0x3FF,
      range 0x1F00 0x1FFE]),
   ("cyrillic", unionAll [range 0x400 0x484, range 0x487 0x52F, range 0x1C80 0x1C88,
      range 0x2DE0 0x2DFF, range 0xA640 0xA69F]),
   ("armenian", unionAll [range 0x531 0x556, range 0x559 0x58A]),
   ("hebrew", unionAll [range 0x591 0x5C7, range 0x5D0 0x5EA, range 0x5EF 0x5F4]),
   ("arabic", unionAll [range 0x600 0x604, range 0x606 0x60B, range 0x60D 0x61A,
      range 0x61C 0x61E, range 0x620 0x63F, range 0x641 0x64A, range 0x656 0x66F,
      range 0x671 0x6DC, range 0x6DE 0x6FF, range 0x750 0x77F]),
   ("devanagari", unionAll [range 0x900 0x950, range 0x955 0x963, range 0x966 0x97F]),
   ("thai", unionAll [range 0xE01 0xE3A, range 0xE40 0xE5B]),
   ("hangul", unionAll [range 0x1100 0x11FF, range 0x3131 0x318E, range 0xAC00 0xD7A3]),
   ("hiragana", unionAll [range 0x3041 0x3096, range 0x309D 0x309F]),
   ("katakana", unionAll [range 0x30A1 0x30FA, range 0x30FD 0x30FF, range 0x31F0 0x31FF,
      range 0xFF66 0xFF6F, range 0xFF71 0xFF9D]),
   ("han", unionAll [range 0x2E80 0x2FD5, single '々', single '〇', range 0x3021 0x3029,
      range 0x3400 0x4DBF, range 0x4E00 0x9FFC, range 0xF900 0xFAD9, range 0x20000 0x2FA1D])]

/-- Properties that are no general category. -/
def properties : List (String × CharSet) :=
  [("any", any), ("ascii", ascii), ("assigned", compl (categories [.cn])),
   ("whitespace", blank), ("wspace", blank), ("space", blank),
   ("alphabetic", union (categories [.lu, .ll, .lt, .lm, .lo, .nl]) letterSymbols),
   ("alpha", union (categories [.lu, .ll, .lt, .lm, .lo, .nl]) letterSymbols),
   ("uppercase", unionAll [categories [.lu], range 0x2160 0x216F, range 0x24B6 0x24CF]),
   ("upper", unionAll [categories [.lu], range 0x2160 0x216F, range 0x24B6 0x24CF]),
   ("lowercase", unionAll [categories [.ll], single 'ª', single 'º', range 0x2170 0x217F,
      range 0x24D0 0x24E9]),
   ("lower", unionAll [categories [.ll], single 'ª', single 'º', range 0x2170 0x217F,
      range 0x24D0 0x24E9]),
   ("digit", categories [.nd]), ("punct", categories [.pc, .pd, .ps, .pe, .pi, .pf, .po])]

/-- A property name without case, blanks, hyphens and underscores. -/
def looseName (name : List Char) : String :=
  String.ofList ((name.filter fun c => !(isBlank c || c == '-' || c == '_')).map Char.toLower)

/-- The set of a general category or of a group of them. -/
def ofCategoryName? (name : String) : Option CharSet :=
  match Category.names.find? fun (_, short, long) =>
      looseName short.toList == name || looseName long.toList == name with
  | some (c, _) => some (categories [c])
  | none =>
    (Category.groups.find? fun (short, long, _) =>
      looseName short.toList == name || looseName long.toList == name).map
        fun (_, _, cats) => categories cats

/-- The set of a property: a name, or a kind of property and a value. -/
def ofProperty? (text : List Char) : Option CharSet :=
  let key := text.takeWhile (fun c => c != '=' && c != ':')
  match text.dropWhile (fun c => c != '=' && c != ':') with
  | [] =>
    let name := looseName key
    (properties.lookup name).or ((ofCategoryName? name).or (scripts.lookup name))
  | _ :: value =>
    let name := looseName value
    match looseName key with
    | "gc" | "generalcategory" => (ofCategoryName? name).or (properties.lookup name)
    | "sc" | "script" | "scx" | "scriptextensions" => scripts.lookup name
    | _ => none

end CharSet

end Distill
