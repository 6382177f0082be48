import TabMarkup.Name
import TabMarkup.Table
import TabMarkup.Text.Quoted

/-!
# What a document can ask for

Names are bound to values or to objects with methods, and paths lead to accessors with methods
and properties. A path leads to the same accessor with and without a backslash in front. Every
question put to an object or an accessor is a call, whether or not it is answered.
-/

namespace TabMarkup

/-- Something whose methods can be called. -/
structure Object where
  invoke : String → Option String

/-- Something with methods and, it may be, properties that a path leads to. -/
structure Accessor where
  call : String → Option String
  property? : Option (String → Option String) := none

/-- A question put to an object or an accessor. -/
inductive Call where
  | method (object member : String)
  | static (path member : String)
  | property (path member : String)
  deriving Repr, DecidableEq

/-- A call as text. -/
def Call.text : Call → String
  | .method object member => object ++ "->" ++ member
  | .static path member => path ++ "::" ++ member ++ "()"
  | .property path member => path ++ "::$" ++ member

/-- What was answered, and the calls that it took. -/
structure Answer where
  text? : Option String
  calls : List Call
  deriving Repr, DecidableEq

/-- What a name is bound to. -/
inductive Binding where
  | value (text : String)
  | object (o : Object)

/-- Calls a method of the object that is bound to `name`. -/
def Object.ask (o : Object) (name method : String) : Answer :=
  { text? := o.invoke method, calls := [.method name method] }

/-- A binding in a diagnostic. -/
def Binding.shown : Binding → String
  | .value text => "Value(" ++ Quoted.text text ++ ")"
  | .object _ => "Object(..)"

/-- The bound names of a document. -/
abbrev Bindings := Table Binding

/-- All bindings in a diagnostic. -/
def Bindings.shown (bindings : Bindings) : String :=
  let entries := bindings.entries.map fun (name, binding) =>
    Quoted.text name ++ ": " ++ binding.shown
  "Bindings \x7b table: \x7b" ++ ", ".intercalate entries ++ "\x7d \x7d"

/-- An accessor and the path that it was registered with. -/
structure Registration where
  path : String
  accessor : Accessor

/-- Calls a method of an accessor. -/
def Registration.ask (r : Registration) (method : String) : Answer :=
  { text? := r.accessor.call method, calls := [.static r.path method] }

/-- Asks an accessor for a property. One that has no properties is not asked. -/
def Registration.askProperty (r : Registration) (property : String) : Answer :=
  match r.accessor.property? with
  | none => { text? := none, calls := [] }
  | some answer => { text? := answer property, calls := [.property r.path property] }

/-- The accessors that paths lead to, under their paths without a backslash in front. -/
structure Statics where
  table : Table Registration := {}

namespace Statics

/-- A path without the backslash that may stand in front of it. -/
def key (path : String) : String :=
  String.ofList (Name.withoutRoot path.toList)

/-- The accessors with one more, in the place of the one that its path led to. -/
def register (statics : Statics) (path : String) (accessor : Accessor) : Statics :=
  { table := statics.table.insert (key path) { path, accessor } }

/-- The accessor that a path leads to. -/
def get? (statics : Statics) (path : String) : Option Registration :=
  statics.table.get? (key path)

/-- All paths in a diagnostic. -/
def shown (statics : Statics) : String :=
  "\x7b" ++ ", ".intercalate (statics.table.names.map Quoted.text) ++ "\x7d"

end Statics

end TabMarkup
