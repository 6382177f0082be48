import TabMarkup.Directive.Parse
import TabMarkup.Event
import TabMarkup.Render.Bindings
import TabMarkup.Render.Error
import TabMarkup.Render.Template

/-!
# Rendering

A document is rendered by copying its text and putting in the values of its directives, in
order. Values are put in as they are and are not looked at again.
-/

namespace TabMarkup

/-- What came of rendering: the text or the first error, how many directives were evaluated
for it, and the calls that were made. -/
structure Rendering where
  result : Except RenderError (List Char)
  directives : Nat := 0
  calls : List Call := []

namespace Rendering

/-- The outcome of an answer that `error` stands for the lack of. -/
def ofAnswer (answer : Answer) (error : RenderError) : Rendering :=
  { result :=
      match answer.text? with
      | some text => .ok text.toList
      | none => .error error
    calls := answer.calls }

/-- One outcome and then another. After an error there is no other. -/
def andThen (first : Rendering) (second : Rendering) : Rendering :=
  match first.result with
  | .error _ => first
  | .ok text =>
    { result := second.result.map (text ++ ·)
      directives := first.directives + second.directives
      calls := first.calls ++ second.calls }

/-- The rendered text, or the error. -/
def text (r : Rendering) : Except RenderError String :=
  r.result.map String.ofList

/-- The event of a rendering that succeeds. -/
def events (r : Rendering) : List Event :=
  match r.result with
  | .ok _ => [.rendered r.directives]
  | .error _ => []

end Rendering

/-- The value of a directive. -/
def Directive.evaluate (bindings : Bindings) (statics : Statics) : Directive → Rendering
  | .value name =>
    match bindings.get? name with
    | some (.value text) => { result := .ok text.toList }
    | some (.object _) => { result := .error (.notValue name) }
    | none => { result := .error (.unboundName name) }
  | .call object method =>
    match bindings.get? object with
    | some (.object o) => .ofAnswer (o.ask object method) (.unknownMethod object method)
    | some (.value _) => { result := .error (.notObject object) }
    | none => { result := .error (.unboundName object) }
  | .staticCall path method =>
    match statics.get? path with
    | some r => .ofAnswer (r.ask method) (.unknownMember path (method ++ "()"))
    | none => { result := .error (.unknownStatic path) }
  | .staticProperty path property =>
    match statics.get? path with
    | some r => .ofAnswer (r.askProperty property) (.unknownMember path ("$" ++ property))
    | none => { result := .error (.unknownStatic path) }

/-- The rendered form of a piece. -/
def Template.Piece.render (bindings : Bindings) (statics : Statics) : Piece → Rendering
  | .literal text => { result := .ok text }
  | .unclosed offset => { result := .error (.unclosedDirective offset) }
  | .directive body =>
    match Directive.ofText? body with
    | some d => { d.evaluate bindings statics with directives := 1 }
    | none => { result := .error (.malformedDirective (String.ofList (Text.trim body))) }

/-- The rendered form of pieces in order. -/
def Template.renderPieces (bindings : Bindings) (statics : Statics) : List Piece → Rendering
  | [] => { result := .ok [] }
  | piece :: rest =>
    (piece.render bindings statics).andThen (renderPieces bindings statics rest)

/-- Renders a composed document. -/
def render (document : String) (bindings : Bindings) (statics : Statics) : Rendering :=
  Template.renderPieces bindings statics (Template.pieces document.toList)

end TabMarkup
