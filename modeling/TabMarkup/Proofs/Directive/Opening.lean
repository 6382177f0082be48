import TabMarkup.Directive.Read
import TabMarkup.Proofs.Gives

/-!
# Embeddings up to their closing braces

Reading an embedding first comes to know which directive it is, and only then asks for closing
braces. The first part, without the braces around it, is read by itself here (`embedding_eq`), and
its texts are those of the grammar of embeddings without their braces (`embedding_iff`).
-/

namespace TabMarkup

namespace Grammar

/-- A directive without the braces around it. -/
inductive DirectiveText : List UInt8 → Directive → Prop where
  | value {x : List UInt8} (hx : IsRun .identifier x) :
    DirectiveText (ascii ['$'] ++ x) (.value (text x))
  | call {x y : List UInt8} (hx : IsRun .identifier x) (hy : IsRun .identifier y) :
    DirectiveText (ascii ['$'] ++ x ++ ascii ['-', '>'] ++ y ++ ascii ['(', ')'])
      (.call (text x) (text y))
  | staticCall {p y : List UInt8} (hp : Path p) (hy : IsRun .identifier y) :
    DirectiveText (p ++ ascii [':', ':'] ++ y ++ ascii ['(', ')']) (.staticCall (text p) (text y))
  | staticProperty {p y : List UInt8} (hp : Path p) (hy : IsRun .identifier y) :
    DirectiveText (p ++ ascii [':', ':', '$'] ++ y) (.staticProperty (text p) (text y))

/-- An embedding is a directive between two braces on each side. -/
theorem embedding_iff {w : List UInt8} {d : Directive} :
    Embedding w d ↔
      ∃ v, w = ascii ['\x7b', '\x7b'] ++ v ++ ascii ['\x7d', '\x7d'] ∧ DirectiveText v d := by
  constructor
  · intro hw
    cases hw with
    | value hx => exact ⟨_, by simp [ascii], DirectiveText.value hx⟩
    | call hx hy => exact ⟨_, by simp [ascii], DirectiveText.call hx hy⟩
    | staticCall hp hy => exact ⟨_, by simp [ascii], DirectiveText.staticCall hp hy⟩
    | staticProperty hp hy => exact ⟨_, by simp [ascii], DirectiveText.staticProperty hp hy⟩
  · rintro ⟨v, rfl, hv⟩
    cases hv with
    | value hx => simpa [ascii] using Embedding.value hx
    | call hx hy => simpa [ascii] using Embedding.call hx hy
    | staticCall hp hy => simpa [ascii] using Embedding.staticCall hp hy
    | staticProperty hp hy => simpa [ascii] using Embedding.staticProperty hp hy

/-- What has to stand behind a directive for it to be the one that it seems to be: a closing brace
behind a name, which could be that of an object, and behind a property no more bytes of its name. -/
def Told : Directive → List UInt8 → Prop
  | .value _, rest => ascii ['\x7d'] <+: rest
  | .staticProperty .., rest => Scan.Stops .identifier rest
  | _, _ => True

end Grammar

namespace Directive

open Scan

/-- The closing braces that are missing when it is known which directive it is. -/
def missing : Directive → Nat
  | .value _ => 1
  | _ => 2

/-- The closing brace by which a name is known not to be that of an object. -/
def closing (d : Directive) : List UInt8 :=
  Grammar.ascii (List.replicate (2 - d.missing) '\x7d')

/-- What follows a dollar sign, up to where it is known which directive it is. -/
def boundText : Scan Directive := do
  let name ← identifier
  if ← skip (.char '\x7d') then
    return .value name
  else
    mark '-'
    mark '>'
    let method ← identifier
    mark '('
    mark ')'
    return .call name method

/-- A path, and the method or the property of what it names. -/
def staticText : Scan Directive := do
  clearScratch
  let _ ← accept (.char '\\')
  let _ ← separatedBy true (.char '\\') word forward_word
  let path ← takeScratch
  mark ':'
  mark ':'
  if ← skip (.char '$') then
    let property ← identifier
    return .staticProperty path property
  else
    let method ← identifier
    mark '('
    mark ')'
    return .staticCall path method

/-- What follows two braces, up to where it is known which directive it is. -/
def directiveText : Scan Directive := do
  if ← skip (.char '$') then boundText else staticText

theorem boundEmbedding_eq :
    boundEmbedding = (do let d ← boundText; close d d.missing) := by
  unfold boundEmbedding boundText
  simp only [bind_assoc]
  refine bind_congr fun name => bind_congr fun brace => ?_
  cases brace <;> simp [missing]

theorem staticEmbedding_eq :
    staticEmbedding = (do let d ← staticText; close d d.missing) := by
  unfold staticEmbedding staticText
  simp only [bind_assoc]
  refine bind_congr fun _ => bind_congr fun _ => bind_congr fun _ => bind_congr fun path =>
    bind_congr fun _ => bind_congr fun _ => bind_congr fun dollar => ?_
  cases dollar <;> simp [missing]

/-- Once it is known which directive it is, an embedding is closed. -/
theorem embedding_eq :
    embedding = (do require (.char '\x7b'); let d ← directiveText; close d d.missing) := by
  unfold embedding directiveText
  rw [boundEmbedding_eq, staticEmbedding_eq]
  simp only [bind_assoc]
  refine bind_congr fun _ => bind_congr fun dollar => ?_
  cases dollar <;> rfl

/-- With the braces that are still missing, a directive is closed. -/
theorem closing_append (d : Directive) :
    d.closing ++ Grammar.ascii (List.replicate d.missing '\x7d') =
      Grammar.ascii ['\x7d', '\x7d'] := by
  cases d <;> rfl

end Directive

end TabMarkup
