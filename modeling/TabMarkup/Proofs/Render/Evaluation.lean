import Mathlib.Data.List.Chain
import TabMarkup.Proofs.Render.Pieces

/-!
# Evaluating fragments

What a list of fragments comes to without any text in between: plain forms are copied, directives
are looked up one after the other, and the first one without a value ends it. Rendering a composed
document comes to just that (`renderPieces_written`).
-/

namespace TabMarkup

variable (bindings : Bindings) (statics : Statics)

namespace Directive

/-- The value that a directive leads to. -/
def lookup? : Directive → Option String
  | .value name =>
    match bindings.get? name with
    | some (.value text) => some text
    | _ => none
  | .call object method =>
    match bindings.get? object with
    | some (.object o) => o.invoke method
    | _ => none
  | .staticCall path method => (statics.get? path).bind fun r => r.accessor.call method
  | .staticProperty path property =>
    (statics.get? path).bind fun r => r.accessor.property?.bind fun answer => answer property

/-- The calls that a directive makes, whether or not they are answered. -/
def questions : Directive → List Call
  | .value _ => []
  | .call object method =>
    match bindings.get? object with
    | some (.object _) => [.method object method]
    | _ => []
  | .staticCall path method =>
    match statics.get? path with
    | some r => [.static r.path method]
    | none => []
  | .staticProperty path property =>
    match statics.get? path with
    | some r => if r.accessor.property?.isSome then [.property r.path property] else []
    | none => []

end Directive

/-- The error is about what a directive leads to, not about the form of a document. -/
def RenderError.IsOfLookup : RenderError → Prop
  | .unclosedDirective _ | .malformedDirective _ => False
  | .unboundName _ | .notValue _ | .notObject _ | .unknownMethod _ _ | .unknownStatic _
  | .unknownMember _ _ => True

namespace Directive

variable {bindings statics} {d : Directive}

/-- A directive that leads to a value has it for its outcome, as it is. -/
theorem evaluate_of_some {text : String} (h : d.lookup? bindings statics = some text) :
    d.evaluate bindings statics =
      { result := .ok text.toList, calls := d.questions bindings statics } := by
  cases d with
  | value name =>
    simp only [lookup?] at h
    split at h
    · rename_i hname
      cases h
      simp [evaluate, questions, hname]
    · cases h
  | call object method =>
    simp only [lookup?] at h
    split at h
    · rename_i hobject
      simp [evaluate, questions, hobject, Object.ask, Rendering.ofAnswer, h]
    · cases h
  | staticCall path method =>
    obtain ⟨r, hpath, hcall⟩ := Option.bind_eq_some_iff.mp h
    simp [evaluate, questions, hpath, Registration.ask, Rendering.ofAnswer, hcall]
  | staticProperty path property =>
    obtain ⟨r, hpath, h⟩ := Option.bind_eq_some_iff.mp h
    obtain ⟨answer, hanswer, hvalue⟩ := Option.bind_eq_some_iff.mp h
    simp [evaluate, questions, hpath, Registration.askProperty, Rendering.ofAnswer, hanswer,
      hvalue]

/-- A directive that leads to no value has an error for its outcome. -/
theorem evaluate_of_none (h : d.lookup? bindings statics = none) :
    ∃ error : RenderError, error.IsOfLookup ∧ d.evaluate bindings statics =
      { result := .error error, calls := d.questions bindings statics } := by
  cases d with
  | value name =>
    simp only [lookup?] at h
    split at h
    · cases h
    · rename_i hname
      cases hget : bindings.get? name with
      | none => exact ⟨.unboundName name, trivial, by simp [evaluate, questions, hget]⟩
      | some binding =>
        cases binding with
        | value text => exact absurd hget (hname text)
        | object o => exact ⟨.notValue name, trivial, by simp [evaluate, questions, hget]⟩
  | call object method =>
    cases hget : bindings.get? object with
    | none => exact ⟨.unboundName object, trivial, by simp [evaluate, questions, hget]⟩
    | some binding =>
      cases binding with
      | value text => exact ⟨.notObject object, trivial, by simp [evaluate, questions, hget]⟩
      | object o =>
        have hnone : o.invoke method = none := by simpa [lookup?, hget] using h
        exact ⟨.unknownMethod object method, trivial, by
          simp [evaluate, questions, hget, Object.ask, Rendering.ofAnswer, hnone]⟩
  | staticCall path method =>
    cases hget : statics.get? path with
    | none => exact ⟨.unknownStatic path, trivial, by simp [evaluate, questions, hget]⟩
    | some r =>
      have hnone : r.accessor.call method = none := by simpa [lookup?, hget] using h
      exact ⟨.unknownMember path (method ++ "()"), trivial, by
        simp [evaluate, questions, hget, Registration.ask, Rendering.ofAnswer, hnone]⟩
  | staticProperty path property =>
    cases hget : statics.get? path with
    | none => exact ⟨.unknownStatic path, trivial, by simp [evaluate, questions, hget]⟩
    | some r =>
      refine ⟨.unknownMember path ("$" ++ property), trivial, ?_⟩
      cases hanswer : r.accessor.property? with
      | none =>
        simp [evaluate, questions, hget, Registration.askProperty, Rendering.ofAnswer, hanswer]
      | some answer =>
        have hnone : answer property = none := by simpa [lookup?, hget, hanswer] using h
        simp [evaluate, questions, hget, Registration.askProperty, Rendering.ofAnswer, hanswer,
          hnone]

end Directive

namespace Fragment

/-- The text of a fragment that is copied. -/
def copied : Fragment → List Char
  | .openTag name => '<' :: name.toList ++ ['>']
  | .closeTag name => '<' :: '/' :: name.toList ++ ['>']
  | .halfOpenTag name => '<' :: name.toList
  | .rawText text => text.toList
  | .attr text => ' ' :: text.toList
  | .directive _ => []

/-- The plain form of a fragment, with these values for directives. -/
def plain (value : Directive → String) : Fragment → List Char
  | .directive d => (value d).toList
  | f => f.copied

/-- The directive of a fragment, if it is one. -/
def directive? : Fragment → Option Directive
  | .directive d => some d
  | _ => none

/-- The fragment is literal text. -/
def isRaw : Fragment → Bool
  | .rawText _ => true
  | _ => false

/-- One ASCII letter or more. -/
def IsTagName (name : String) : Prop :=
  name.toList ≠ [] ∧ ∀ c ∈ name.toList, c.isAlpha = true

/-- The fragment can be told apart in a composed document: tags are named by letters, attributes
have no white space around them and do not end in the middle of a mark. -/
def WellFormed : Fragment → Prop
  | .openTag name | .closeTag name | .halfOpenTag name => IsTagName name
  | .rawText _ => True
  | .attr text => Text.trim text.toList = text.toList ∧ text.toList.getLast? ≠ some '<'
  | .directive d => d.WellFormed

theorem IsTagName.notMem {name : String} (hname : IsTagName name) {c : Char}
    (hc : c.isAlpha = false) : c ∉ name.toList := by
  intro hmem
  rw [hname.2 c hmem] at hc
  cases hc

/-- Whatever is copied is written as the escaped form of itself. -/
theorem WellFormed.written_eq_escape {f : Fragment} (hf : f.WellFormed)
    (hcopied : f.directive? = none) : f.written = escape f.copied := by
  cases f with
  | openTag name =>
    have hname : '%' ∉ name.toList := IsTagName.notMem hf rfl
    exact (escape_of_notMem (by simpa [written] using hname)).symm
  | closeTag name =>
    have hname : '%' ∉ name.toList := IsTagName.notMem hf rfl
    exact (escape_of_notMem (by simpa [written] using hname)).symm
  | halfOpenTag name =>
    have hname : '%' ∉ name.toList := IsTagName.notMem hf rfl
    exact (escape_of_notMem (by simpa [written] using hname)).symm
  | rawText text => rfl
  | attr text =>
    have htrim : Text.trim text.toList = text.toList := hf.1
    rw [written, htrim, copied, escape]
    rintro _ h
    cases h
  | directive d => cases hcopied

/-- Only literal text can begin with a percent sign. -/
theorem head?_written_ne {f : Fragment} (hf : f.isRaw = false) (rest : List Char) :
    (f.written ++ rest).head? ≠ some '%' := by
  cases f with
  | rawText text => cases hf
  | _ => simp [written, Directive.composed]

/-- Only literal text can end with the beginning of a mark. -/
theorem WellFormed.getLast?_copied_ne {f : Fragment} (hf : f.WellFormed)
    (hraw : f.isRaw = false) : f.copied.getLast? ≠ some '<' := by
  cases f with
  | openTag name =>
    rw [copied, List.getLast?_concat]
    decide
  | closeTag name =>
    rw [copied, List.getLast?_concat]
    decide
  | halfOpenTag name =>
    intro hlast
    have hmem : '<' ∈ name.toList := by
      rw [copied, List.getLast?_cons_of_ne_nil hf.1] at hlast
      exact List.mem_of_getLast? hlast
    exact IsTagName.notMem hf rfl hmem
  | rawText text => cases hraw
  | attr text =>
    intro hlast
    rw [copied, List.getLast?_cons] at hlast
    cases htext : text.toList.getLast? with
    | none =>
      rw [htext] at hlast
      cases hlast
    | some c =>
      rw [htext] at hlast
      exact hf.2 (htext.trans hlast)
  | directive d => simp [copied]

/-- No two literal texts stand next to each other. -/
def Apart (f g : Fragment) : Prop :=
  f.isRaw = true → g.isRaw = false

/-- The directives among some fragments, in order. -/
def directives (fs : List Fragment) : List Directive :=
  fs.filterMap directive?

theorem eq_directive {f : Fragment} {d : Directive} (h : f.directive? = some d) :
    f = .directive d := by
  cases f <;> cases h
  rfl

@[simp] theorem directives_nil : directives [] = [] :=
  rfl

@[simp] theorem directives_cons_directive (d : Directive) (fs : List Fragment) :
    directives (.directive d :: fs) = d :: directives fs :=
  rfl

theorem directives_cons_copied {f : Fragment} (hf : f.directive? = none) (fs : List Fragment) :
    directives (f :: fs) = directives fs :=
  List.filterMap_cons_none hf

theorem plain_copied {f : Fragment} (hf : f.directive? = none) (value : Directive → String) :
    f.plain value = f.copied := by
  cases f with
  | directive d => cases hf
  | _ => rfl

variable (bindings : Bindings) (statics : Statics)

/-- The outcome of some fragments and a newline behind them. -/
def evaluateAll : List Fragment → Rendering
  | [] => { result := .ok ['\n'] }
  | .directive d :: fs =>
    ({ d.evaluate bindings statics with directives := 1 } : Rendering).andThen (evaluateAll fs)
  | f :: fs => (evaluateAll fs).prepend f.copied

theorem evaluateAll_cons_copied {f : Fragment} (hf : f.directive? = none) (fs : List Fragment) :
    evaluateAll bindings statics (f :: fs) =
      (evaluateAll bindings statics fs).prepend f.copied := by
  cases f with
  | directive d => cases hf
  | _ => rfl

/-- Where the next fragment is no literal text after a literal text, what follows begins no
mark. -/
theorem head?_flatMap_written {f : Fragment} {fs : List Fragment}
    (hchain : (f :: fs).IsChain Apart) (hraw : f.isRaw = true) :
    (fs.flatMap written ++ ['\n']).head? ≠ some '%' := by
  cases fs with
  | nil => decide
  | cons g fs =>
    obtain ⟨happart, _⟩ := List.isChain_cons_cons.mp hchain
    rw [List.flatMap_cons, List.append_assoc]
    exact head?_written_ne (happart hraw) _

/-- Rendering composed fragments comes to evaluating them. -/
theorem renderPieces_written {fs : List Fragment} (hfs : ∀ f ∈ fs, f.WellFormed)
    (hchain : fs.IsChain Apart) (offset : Nat) :
    Template.renderPieces bindings statics
        (Template.piecesFrom offset (fs.flatMap written ++ ['\n'])) =
      evaluateAll bindings statics fs := by
  induction fs generalizing offset with
  | nil =>
    have hnewline : ∀ rest, '\n' :: [] ≠ '<' :: '%' :: rest := by
      intro rest h
      cases h
    rw [List.flatMap_nil, List.nil_append, Template.piecesFrom_cons hnewline,
      Template.piecesFrom]
    rfl
  | cons f fs ih =>
    have hf := hfs f (by simp)
    have hrest := ih (fun g hg => hfs g (by simp [hg])) hchain.tail
    rw [List.flatMap_cons, List.append_assoc]
    cases hdirective : f.directive? with
    | none =>
      have hseam : f.copied.getLast? = some '<' →
          (fs.flatMap written ++ ['\n']).head? ≠ some '%' := by
        intro hlast
        cases hraw : f.isRaw with
        | true => exact head?_flatMap_written hchain hraw
        | false => exact absurd hlast (hf.getLast?_copied_ne hraw)
      obtain ⟨offset', hpieces⟩ :=
        Template.renderPieces_escape bindings statics hseam offset
      rw [hf.written_eq_escape hdirective, hpieces, hrest,
        evaluateAll_cons_copied bindings statics hdirective]
    | some d =>
      obtain rfl := eq_directive hdirective
      obtain ⟨offset', hpieces⟩ := Template.renderPieces_composed bindings statics hf
        (fs.flatMap written ++ ['\n']) offset
      rw [written, hpieces, hrest]
      rfl

variable {bindings statics}

/-- Where all directives lead to values, the outcome is all plain forms in order. -/
theorem evaluateAll_of_all {fs : List Fragment} {value : Directive → String}
    (hall : ∀ d ∈ directives fs, d.lookup? bindings statics = some (value d)) :
    evaluateAll bindings statics fs =
      { result := .ok (fs.flatMap (plain value) ++ ['\n'])
        directives := (directives fs).length
        calls := (directives fs).flatMap (Directive.questions bindings statics) } := by
  induction fs with
  | nil => rfl
  | cons f fs ih =>
    cases hf : f.directive? with
    | none =>
      rw [directives_cons_copied hf] at hall ⊢
      rw [evaluateAll_cons_copied bindings statics hf, ih hall]
      simp [Rendering.prepend, plain_copied hf, Except.map]
    | some d =>
      obtain rfl := eq_directive hf
      rw [directives_cons_directive] at hall ⊢
      obtain ⟨hd, hall⟩ := List.forall_mem_cons.mp hall
      rw [evaluateAll, ih hall, Directive.evaluate_of_some hd]
      simp [Rendering.andThen, plain, Except.map, Nat.add_comm]

/-- The first directive that leads to no value ends it with its error, and is the last to make
its calls. -/
theorem evaluateAll_of_first {before : List Fragment} {d : Directive}
    (hbefore : ∀ d' ∈ directives before, (d'.lookup? bindings statics).isSome)
    (hd : d.lookup? bindings statics = none) (after : List Fragment) :
    ∃ error : RenderError, error.IsOfLookup ∧
      (d.evaluate bindings statics).result = .error error ∧
      (evaluateAll bindings statics (before ++ .directive d :: after)).result = .error error ∧
      (evaluateAll bindings statics (before ++ .directive d :: after)).calls =
        (directives before ++ [d]).flatMap (Directive.questions bindings statics) := by
  obtain ⟨error, hlookup, heval⟩ := Directive.evaluate_of_none hd
  refine ⟨error, hlookup, by rw [heval], ?_⟩
  induction before with
  | nil =>
    rw [List.nil_append, evaluateAll, heval]
    simp [Rendering.andThen]
  | cons f before ih =>
    rw [List.cons_append]
    cases hf : f.directive? with
    | none =>
      rw [directives_cons_copied hf] at hbefore ⊢
      obtain ⟨hresult, hcalls⟩ := ih hbefore
      rw [evaluateAll_cons_copied bindings statics hf]
      simp [Rendering.prepend, hresult, hcalls, Except.map]
    | some d' =>
      obtain rfl := eq_directive hf
      rw [directives_cons_directive] at hbefore ⊢
      obtain ⟨hd', hbefore⟩ := List.forall_mem_cons.mp hbefore
      obtain ⟨text, htext⟩ := Option.isSome_iff_exists.mp hd'
      obtain ⟨hresult, hcalls⟩ := ih hbefore
      rw [evaluateAll, Directive.evaluate_of_some htext]
      simp [Rendering.andThen, hresult, hcalls, Except.map]

variable (bindings statics)

/-- Either all directives lead to values, or there is a first one that does not. -/
theorem all_or_first (fs : List Fragment) :
    (∀ d ∈ directives fs, (d.lookup? bindings statics).isSome) ∨
      ∃ before d after, fs = before ++ .directive d :: after ∧
        (∀ d' ∈ directives before, (d'.lookup? bindings statics).isSome) ∧
        d.lookup? bindings statics = none := by
  induction fs with
  | nil => exact Or.inl (by simp)
  | cons f fs ih =>
    cases hf : f.directive? with
    | none =>
      rw [directives_cons_copied hf]
      rcases ih with hall | ⟨before, d, after, rfl, hbefore, hd⟩
      · exact Or.inl hall
      · refine Or.inr ⟨f :: before, d, after, rfl, ?_, hd⟩
        rwa [directives_cons_copied hf]
    | some d =>
      obtain rfl := eq_directive hf
      cases hd : d.lookup? bindings statics with
      | none => exact Or.inr ⟨[], d, fs, rfl, by simp, hd⟩
      | some text =>
        rcases ih with hall | ⟨before, e, after, rfl, hbefore, he⟩
        · exact Or.inl (by simpa [hd] using hall)
        · exact Or.inr ⟨.directive d :: before, e, after, rfl, by simpa [hd] using hbefore, he⟩

end Fragment

end TabMarkup
