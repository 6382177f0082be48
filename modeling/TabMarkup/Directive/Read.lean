import TabMarkup.Directive
import TabMarkup.Scanner

/-!
# Reading embeddings

An embedding is a directive between double braces. The forms are told apart by the byte after
the braces and by what follows the first name. Main statement: reading an embedding goes
forward (`forward_embedding`).
-/

namespace TabMarkup.Directive

open Scan

/-- A byte without which there is no embedding. -/
def mark (c : Char) : Scan Unit := do
  if ← skip (.char c) then return ()
  fail .malformedEmbedding

/-- One identifier byte or more, added to the token. -/
def word : Scan Unit := do
  if (← acceptWhile .identifier) = 0 then
    fail .malformedEmbedding

/-- An identifier. -/
def identifier : Scan String := do
  clearScratch
  word
  takeScratch

/-- The closing braces that are still missing after a directive. -/
def close (d : Directive) : (missing : Nat) → Scan Directive
  | 0 => return d
  | missing + 1 => do
    if ← skip (.char '\x7d') then close d missing
    else fail (.unclosedEmbedding (String.ofList d.opening))

/-- What follows a dollar sign: a name, or a name and one of its methods. -/
def boundEmbedding : Scan Directive := do
  let name ← identifier
  if ← skip (.char '\x7d') then
    close (.value name) 1
  else
    mark '-'
    mark '>'
    let method ← identifier
    mark '('
    mark ')'
    close (.call name method) 2

theorem forward_mark (c : Char) : Forward (mark c) := by
  refine (forward_skip _).bind fun b => ?_
  cases b
  · exact forward_fail _
  · exact forward_pure _

theorem forward_word : Forward word := by
  refine (forward_acceptWhile _).bind fun n => ?_
  split
  · exact forward_fail _
  · exact forward_pure _

theorem forward_identifier : Forward identifier :=
  forward_clearScratch.bind fun _ => forward_word.bind fun _ => forward_takeScratch

theorem forward_close (d : Directive) (missing : Nat) : Forward (close d missing) := by
  induction missing with
  | zero => exact forward_pure d
  | succ missing ih =>
    refine (forward_skip _).bind fun b => ?_
    cases b
    · exact forward_fail _
    · exact ih

theorem forward_boundEmbedding : Forward boundEmbedding := by
  refine forward_identifier.bind fun name => (forward_skip _).bind fun b => ?_
  cases b
  · exact (forward_mark _).bind fun _ => (forward_mark _).bind fun _ =>
      forward_identifier.bind fun _ => (forward_mark _).bind fun _ =>
      (forward_mark _).bind fun _ => forward_close _ _
  · exact forward_close _ _

/-- A path, and a method or a property of what it names. -/
def staticEmbedding : Scan Directive := do
  clearScratch
  let _ ← accept (.char '\\')
  let _ ← separatedBy true (.char '\\') word forward_word
  let path ← takeScratch
  mark ':'
  mark ':'
  if ← skip (.char '$') then
    let property ← identifier
    close (.staticProperty path property) 2
  else
    let method ← identifier
    mark '('
    mark ')'
    close (.staticCall path method) 2

theorem forward_staticEmbedding : Forward staticEmbedding := by
  refine forward_clearScratch.bind fun _ => (forward_accept _).bind fun _ =>
    (forward_separatedBy _ _ _ _).bind fun _ => forward_takeScratch.bind fun path =>
    (forward_mark _).bind fun _ => (forward_mark _).bind fun _ =>
    (forward_skip _).bind fun b => ?_
  cases b
  · exact forward_identifier.bind fun _ => (forward_mark _).bind fun _ =>
      (forward_mark _).bind fun _ => forward_close _ _
  · exact forward_identifier.bind fun _ => forward_close _ _

/-- Everything of an embedding after its first brace. -/
def embedding : Scan Directive := do
  require (.char '\x7b')
  if ← skip (.char '$') then boundEmbedding else staticEmbedding

theorem forward_embedding : Forward embedding := by
  refine (forward_require _).bind fun _ => (forward_skip _).bind fun b => ?_
  cases b
  · exact forward_staticEmbedding
  · exact forward_boundEmbedding

end TabMarkup.Directive
