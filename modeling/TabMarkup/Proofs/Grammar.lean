import TabMarkup.Line
import TabMarkup.Text.Utf8

/-!
# The grammar of lines

Which bytes make up a line and what they say, without any reader: names are runs of bytes,
embeddings stand between double braces, items follow a tag name each after one space, and a line
is indented by tabs. No text of the grammar has a newline in it, so a source has one line between
each two newlines.
-/

namespace TabMarkup.Grammar

/-- The bytes of ASCII characters. -/
def ascii (characters : List Char) : List UInt8 :=
  characters.map Char.toUInt8

/-- Bytes as text. -/
def text (bytes : List UInt8) : String :=
  String.ofList (Utf8.decodeLossy bytes)

/-- One byte or more, each of which the pattern admits. -/
def IsRun (p : Pattern) (w : List UInt8) : Prop :=
  w ≠ [] ∧ ∀ b ∈ w, p.admits b = true

/-- Identifiers with one backslash between each two. -/
inductive Segments : List UInt8 → Prop where
  | single {w : List UInt8} (hw : IsRun .identifier w) : Segments w
  | cons {w v : List UInt8} (hw : IsRun .identifier w) (hv : Segments v) :
      Segments (w ++ ascii ['\\'] ++ v)

/-- Identifiers with one backslash between each two, and at most one in front. -/
inductive Path : List UInt8 → Prop where
  | plain {w : List UInt8} (hw : Segments w) : Path w
  | rooted {w : List UInt8} (hw : Segments w) : Path (ascii ['\\'] ++ w)

/-- A directive between double braces. -/
inductive Embedding : List UInt8 → Directive → Prop where
  | value {x : List UInt8} (hx : IsRun .identifier x) :
      Embedding (ascii ['\x7b', '\x7b', '$'] ++ x ++ ascii ['\x7d', '\x7d']) (.value (text x))
  | call {x y : List UInt8} (hx : IsRun .identifier x) (hy : IsRun .identifier y) :
      Embedding (ascii ['\x7b', '\x7b', '$'] ++ x ++ ascii ['-', '>'] ++ y ++
        ascii ['(', ')', '\x7d', '\x7d']) (.call (text x) (text y))
  | staticCall {p y : List UInt8} (hp : Path p) (hy : IsRun .identifier y) :
      Embedding (ascii ['\x7b', '\x7b'] ++ p ++ ascii [':', ':'] ++ y ++
        ascii ['(', ')', '\x7d', '\x7d']) (.staticCall (text p) (text y))
  | staticProperty {p y : List UInt8} (hp : Path p) (hy : IsRun .identifier y) :
      Embedding (ascii ['\x7b', '\x7b'] ++ p ++ ascii [':', ':', '$'] ++ y ++
        ascii ['\x7d', '\x7d']) (.staticProperty (text p) (text y))

/-- A name, an equals sign, and a value between two quotes of one kind. -/
inductive Attribute : List UInt8 → Prop where
  | quoted {x v : List UInt8} {q : Char} (hx : IsRun .attributeName x) (hq : q = '\x22' ∨ q = '\'')
      (hv : ∀ b ∈ v, (Pattern.quoted q.toUInt8).admits b = true) :
      Attribute (x ++ ascii ['=', q] ++ v ++ ascii [q])

/-- One of the things that follow a tag name. -/
inductive ItemText : List UInt8 → Item → Prop where
  | attr {w : List UInt8} (hw : Attribute w) : ItemText w (.attr (text w))
  | directive {w : List UInt8} {d : Directive} (hw : Embedding w d) : ItemText w (.directive d)

/-- One item or more, each after a space. -/
inductive ItemsText : List UInt8 → List Item → Prop where
  | single {w : List UInt8} {i : Item} (hw : ItemText w i) : ItemsText (ascii [' '] ++ w) [i]
  | cons {w v : List UInt8} {i : Item} {is : List Item} (hw : ItemText w i)
      (hv : ItemsText v is) : ItemsText (ascii [' '] ++ w ++ v) (i :: is)

/-- What follows a tag name on its line. -/
inductive BodyText : List UInt8 → TagBody → Prop where
  | bare : BodyText [] .bare
  | text {v : List UInt8} (hv : IsRun .content v) :
      BodyText (ascii ['|'] ++ v) (.text (text v))
  | items {w : List UInt8} {is : List Item} (hw : ItemsText w is) : BodyText w (.items is)

/-- The indentation of a line. -/
def tabs (count : Nat) : List UInt8 :=
  List.replicate count 9

/-- Tabs in front do not matter for what comes behind the tabs. -/
theorem dropWhile_tabs_append (count : Nat) (w : List UInt8) :
    (tabs count ++ w).dropWhile (· == 9) = w.dropWhile (· == 9) := by
  have htabs : ∀ b ∈ tabs count, (b == 9) = true := by
    intro b hb
    rw [List.eq_of_mem_replicate hb]
    decide
  rw [List.dropWhile_append_of_pos htabs]

/-- A line without its newline; `number` is the number of the line. -/
inductive LineText (number : Nat) : List UInt8 → Line → Prop where
  | blank (count : Nat) : LineText number (tabs count) .blank
  | directive {count : Nat} {w : List UInt8} {d : Directive} (hw : Embedding w d) :
      LineText number (tabs count ++ w) (.directive count d)
  | tag {count : Nat} {x w : List UInt8} {body : TagBody} (hx : IsRun .letter x)
      (hw : BodyText w body) :
      LineText number (tabs count ++ x ++ w) (.tag count number (text x) body)

/-- Lines one after another, the first of which has the number `number`. -/
inductive Document : Nat → List (List UInt8) → List Line → Prop where
  | nil (number : Nat) : Document number [] []
  | cons {number : Nat} {w : List UInt8} {line : Line} {ws : List (List UInt8)}
      {lines : List Line} (hw : LineText number w line) (hws : Document (number + 1) ws lines) :
      Document number (w :: ws) (line :: lines)

/-! ## No newlines -/

/-- A pattern that does not admit a newline has none in its runs. -/
theorem newline_notMem_of_admits {p : Pattern} (hp : p.admits 10 = false) {w : List UInt8}
    (hw : ∀ b ∈ w, p.admits b = true) : (10 : UInt8) ∉ w := by
  intro hmem
  rw [hw 10 hmem] at hp
  cases hp

theorem IsRun.newline_notMem {p : Pattern} {w : List UInt8} (hw : IsRun p w)
    (hp : p.admits 10 = false) : (10 : UInt8) ∉ w :=
  newline_notMem_of_admits hp hw.2

theorem Segments.newline_notMem {w : List UInt8} (hw : Segments w) : (10 : UInt8) ∉ w := by
  induction hw with
  | single hw => exact hw.newline_notMem rfl
  | cons hw hv ih => simp +decide [hw.newline_notMem rfl, ih, ascii]

theorem Path.newline_notMem {w : List UInt8} (hw : Path w) : (10 : UInt8) ∉ w := by
  cases hw with
  | plain hw => exact hw.newline_notMem
  | rooted hw => simp +decide [hw.newline_notMem, ascii]

theorem Embedding.newline_notMem {w : List UInt8} {d : Directive} (hw : Embedding w d) :
    (10 : UInt8) ∉ w := by
  cases hw with
  | value hx => simp +decide [hx.newline_notMem rfl, ascii]
  | call hx hy => simp +decide [hx.newline_notMem rfl, hy.newline_notMem rfl, ascii]
  | staticCall hp hy => simp +decide [hp.newline_notMem, hy.newline_notMem rfl, ascii]
  | staticProperty hp hy => simp +decide [hp.newline_notMem, hy.newline_notMem rfl, ascii]

theorem Attribute.newline_notMem {w : List UInt8} (hw : Attribute w) : (10 : UInt8) ∉ w := by
  cases hw with
  | quoted hx hq hv =>
    have hvalue := newline_notMem_of_admits rfl hv
    rcases hq with rfl | rfl <;> simp +decide [hx.newline_notMem rfl, hvalue, ascii]

theorem ItemText.newline_notMem {w : List UInt8} {i : Item} (hw : ItemText w i) :
    (10 : UInt8) ∉ w := by
  cases hw with
  | attr hw => exact hw.newline_notMem
  | directive hw => exact hw.newline_notMem

theorem ItemsText.newline_notMem {w : List UInt8} {is : List Item} (hw : ItemsText w is) :
    (10 : UInt8) ∉ w := by
  induction hw with
  | single hw => simp +decide [hw.newline_notMem, ascii]
  | cons hw hv ih => simp +decide [hw.newline_notMem, ih, ascii]

theorem BodyText.newline_notMem {w : List UInt8} {body : TagBody} (hw : BodyText w body) :
    (10 : UInt8) ∉ w := by
  cases hw with
  | bare => simp
  | text hv => simp +decide [hv.newline_notMem rfl, ascii]
  | items hw => exact hw.newline_notMem

/-- The text of a line ends before the newline. -/
theorem LineText.newline_notMem {number : Nat} {w : List UInt8} {line : Line}
    (hw : LineText number w line) : (10 : UInt8) ∉ w := by
  cases hw with
  | blank count => simp [tabs]
  | directive hw => simp [hw.newline_notMem, tabs]
  | tag hx hw => simp [hx.newline_notMem rfl, hw.newline_notMem, tabs]

end TabMarkup.Grammar
