import TabMarkup.Proofs.Line.Completeness
import TabMarkup.Proofs.Outline

/-!
# What stands in front of an embedding

An embedding stands behind the tabs of a line, or behind a tag, other items and a space. Behind
these the reader of lines comes to the reader of embeddings: what is wrong there is wrong with the
line, and the directive that is read there is one of the line (`read_of_lead`).
-/

namespace TabMarkup

namespace Grammar

/-- What can stand on a line in front of an embedding. -/
inductive Lead : List UInt8 → Prop where
  | margin (count : Nat) : Lead (tabs count)
  | tag (count : Nat) {x w : List UInt8} (hx : IsRun .letter x)
    (hw : w = [] ∨ ∃ is, ItemsText w is) : Lead (tabs count ++ x ++ w ++ ascii [' '])

theorem Lead.newline_notMem {lead : List UInt8} (hlead : Lead lead) : (10 : UInt8) ∉ lead := by
  cases hlead with
  | margin count => simp [tabs]
  | @tag count x w hx hw =>
    have hitems : (10 : UInt8) ∉ w := by
      rcases hw with rfl | ⟨is, hw⟩
      · exact List.not_mem_nil
      · exact hw.newline_notMem
    simp +decide [hx.newline_notMem rfl, hitems, tabs, ascii]

/-- One more item behind the others. -/
theorem ItemsText.concat {w v : List UInt8} {is : List Item} {i : Item} (hw : ItemsText w is)
    (hv : ItemText v i) : ItemsText (w ++ (ascii [' '] ++ v)) (is ++ [i]) := by
  induction hw with
  | single hw => exact ItemsText.cons hw (ItemsText.single hv)
  | cons hw hrest ih =>
    rw [List.append_assoc]
    exact ItemsText.cons hw ih

end Grammar

namespace Scan

open Grammar Line

/-! ## Coming to an embedding -/

/-- Steps from `s` on that come to an embedding at `start`. They stop with its error, and what they
answer has its directive. -/
structure ComesTo {ε α : Type} (start : Scanner) (toError : ε → ParseError)
    (Has : α → Directive → Prop) (m : EStateM ε Scanner α) (s : Scanner) : Prop where
  stops : ∀ e t, Directive.embedding start = .error e t → ∃ e', m s = .error e' t ∧ toError e' = e
  has : ∀ d t, Directive.embedding start = .ok d t → ∀ a u, m s = .ok a u → Has a d

namespace ComesTo

variable {ε α β : Type} {start s t : Scanner} {toError : ε → ParseError}
  {Has : α → Directive → Prop} {m : EStateM ε Scanner α}

theorem self (start : Scanner) : ComesTo start id Eq Directive.embedding start where
  stops := fun e _ herror => ⟨e, herror, rfl⟩
  has := fun d t hok a u hok' => by
    rw [hok] at hok'
    cases hok'
    rfl

theorem of_run_eq (h : ComesTo start toError Has m t) {m' : EStateM ε Scanner α}
    (heq : m' s = m t) : ComesTo start toError Has m' s where
  stops := fun e u herror => by
    rw [heq]
    exact h.stops e u herror
  has := fun d u hok a v hok' => h.has d u hok a v (heq ▸ hok')

/-- Steps that are taken before do not matter. -/
theorem behind {f : β → EStateM ε Scanner α} {m : EStateM ε Scanner β} {b : β}
    (hok : m s = .ok b t) (h : ComesTo start toError Has (f b) t) :
    ComesTo start toError Has (m >>= f) s :=
  h.of_run_eq (bind_of_ok hok)

/-- What follows is not come to if the embedding is at fault, and keeps its directive if not. -/
theorem bind (h : ComesTo start toError Has m s) {Has' : β → Directive → Prop}
    {f : α → EStateM ε Scanner β}
    (hf : ∀ a d t b u, Has a d → f a t = .ok b u → Has' b d) :
    ComesTo start toError Has' (m >>= f) s where
  stops := fun e u herror => by
    obtain ⟨e', herror', he'⟩ := h.stops e u herror
    exact ⟨e', bind_of_error herror', he'⟩
  has := fun d u hok b v hok' => by
    obtain ⟨a, t, ha, hb⟩ := bind_eq_ok.mp hok'
    exact hf a d t b v (h.has d u hok a t ha) hb

theorem reaching {m : Scan α} (h : ComesTo start id Has m s) (reached : Reached) :
    ComesTo start Stop.error Has (Line.reaching reached m) s where
  stops := fun e u herror => by
    obtain ⟨_, hm, rfl⟩ := h.stops e u herror
    exact ⟨⟨_, reached⟩, by rw [Line.reaching, hm], rfl⟩
  has := fun d u hok a v hok' => h.has d u hok a v (reaching_eq_ok.mp hok')

end ComesTo

/-! ## From the start of a line -/

variable {s : Scanner} {line : Nat} {w lead rest : List UInt8}

/-- A brace begins an embedding, and not an attribute. -/
theorem item_comes (hs : s.cursor.At { bytes := ascii ['\x7b'] ++ rest } line false) :
    ∃ start : Scanner, start.cursor.At { bytes := rest } line false ∧
      ComesTo start id (fun i d => i = .directive d) item s := by
  obtain ⟨start, hbrace, hstart, _⟩ := test_admitted (p := .char '\x7b') false hs rfl
  refine ⟨start, hstart, .behind hbrace <| (ComesTo.self start).bind ?_⟩
  rintro d _ t i u rfl hi
  cases hi
  rfl

/-- An embedding is the first item of a list that begins with it. -/
theorem itemList_comes (hs : s.cursor.At { bytes := ascii ['\x7b'] ++ rest } line false) :
    ∃ start : Scanner, start.cursor.At { bytes := rest } line false ∧
      ComesTo start id (fun is d => .directive d ∈ is)
        (separatedBy false (.char ' ') item forward_item) s := by
  obtain ⟨start, hstart, hitem⟩ := item_comes hs
  refine ⟨start, hstart, .of_run_eq (hitem.bind ?_) (separatedBy_eq _ _ _ _ s)⟩
  rintro _ d t is u rfl his
  obtain ⟨more, t', _, his⟩ := bind_eq_ok.mp his
  cases more with
  | false =>
    cases his
    exact List.mem_cons_self
  | true =>
    obtain ⟨is, u', _, his⟩ := bind_eq_ok.mp his
    cases his
    exact List.mem_cons_self

/-- Behind an item and a space, a list goes on with its next item. -/
theorem itemList_behind {i : Item} (hw : ItemText w i)
    (hs : s.cursor.At { bytes := w ++ (ascii [' '] ++ rest) } line false) :
    ∃ t : Scanner, t.cursor.At { bytes := rest } line false ∧ ∀ start,
      ComesTo start id (fun is d => .directive d ∈ is)
          (separatedBy false (.char ' ') item forward_item) t →
        ComesTo start id (fun is d => .directive d ∈ is)
          (separatedBy false (.char ' ') item forward_item) s := by
  obtain ⟨u, hitem, hu, _⟩ := gives_item hw hs rfl
  obtain ⟨t, hspace, ht, _⟩ := test_admitted (p := .char ' ') false (at_of_takes hu) rfl
  refine ⟨t, ht, fun start h => .of_run_eq ?_ (separatedBy_eq _ _ _ _ s)⟩
  refine .behind hitem (.behind hspace (h.bind ?_))
  rintro is d t is' u hd his
  cases his
  exact List.mem_cons_of_mem i hd

/-- Behind other items and a space, a list comes to an embedding. -/
theorem itemList_comes_behind {is : List Item} (hw : ItemsText w is) :
    ∃ v, w = ascii [' '] ++ v ∧ ∀ ⦃s : Scanner⦄ ⦃line : Nat⦄ ⦃rest : List UInt8⦄,
      s.cursor.At { bytes := v ++ (ascii [' '] ++ (ascii ['\x7b'] ++ rest)) } line false →
      ∃ start : Scanner, start.cursor.At { bytes := rest } line false ∧
        ComesTo start id (fun is d => .directive d ∈ is)
          (separatedBy false (.char ' ') item forward_item) s := by
  induction hw with
  | @single w i hw =>
    refine ⟨w, rfl, fun s line rest hs => ?_⟩
    obtain ⟨t, ht, hlist⟩ := itemList_behind hw hs
    obtain ⟨start, hstart, hcomes⟩ := itemList_comes ht
    exact ⟨start, hstart, hlist start hcomes⟩
  | @cons w v i is hw hv ih =>
    obtain ⟨v, rfl, hrest⟩ := ih
    refine ⟨w ++ (ascii [' '] ++ v), by rw [List.append_assoc], fun s line rest hs => ?_⟩
    rw [List.append_assoc, List.append_assoc] at hs
    obtain ⟨t, ht, hlist⟩ := itemList_behind hw hs
    obtain ⟨start, hstart, hcomes⟩ := hrest ht
    exact ⟨start, hstart, hlist start hcomes⟩

/-- Behind a tag name and other items, if there are any, the reader of items comes to an
embedding. -/
theorem items_comes (hw : w = [] ∨ ∃ is, ItemsText w is)
    (hs : s.cursor.At { bytes := w ++ (ascii [' '] ++ (ascii ['\x7b'] ++ rest)) } line false) :
    ∃ start : Scanner, start.cursor.At { bytes := rest } line false ∧
      ComesTo start id (fun body d => ∃ is, body = .items is ∧ .directive d ∈ is) items s := by
  obtain ⟨t, start, hspace, hstart, hlist⟩ : ∃ t start : Scanner,
      demand false (.char ' ') s = .ok () t ∧ start.cursor.At { bytes := rest } line false ∧
      ComesTo start id (fun is d => .directive d ∈ is)
        (separatedBy false (.char ' ') item forward_item) t := by
    rcases hw with rfl | ⟨is, hw⟩
    · obtain ⟨t, hspace, ht, _⟩ := demand_admitted (p := .char ' ') false hs rfl
      obtain ⟨start, hstart, hlist⟩ := itemList_comes ht
      exact ⟨t, start, hspace, hstart, hlist⟩
    · obtain ⟨v, rfl, hcomes⟩ := itemList_comes_behind hw
      obtain ⟨t, hspace, ht, _⟩ := demand_admitted (p := .char ' ') false hs rfl
      obtain ⟨start, hstart, hlist⟩ := hcomes ht
      exact ⟨t, start, hspace, hstart, hlist⟩
  refine ⟨start, hstart, .behind hspace (hlist.bind ?_)⟩
  rintro is d u body v hd hbody
  obtain ⟨_, _, _, hbody⟩ := bind_eq_ok.mp hbody
  cases hbody
  exact ⟨is, rfl, hd⟩

/-- What follows a tag name is neither the end of the line nor a bar, and so there are items. -/
theorem tagBody_comes (tabs number : Nat) (name : String) (hw : w = [] ∨ ∃ is, ItemsText w is)
    (hs : s.cursor.At { bytes := w ++ (ascii [' '] ++ (ascii ['\x7b'] ++ rest)) } line false) :
    ∃ start : Scanner, start.cursor.At { bytes := rest } line false ∧
      ComesTo start Stop.error (fun body d => ∃ is, body = .items is ∧ .directive d ∈ is)
        (tagBody tabs number name) s := by
  obtain ⟨v, hv⟩ : ∃ v, w ++ (ascii [' '] ++ (ascii ['\x7b'] ++ rest)) = ' '.toUInt8 :: v := by
    rcases hw with rfl | ⟨is, hw⟩
    · exact ⟨_, rfl⟩
    · cases hw <;> exact ⟨_, rfl⟩
  have hspace := hs
  rw [hv] at hspace
  obtain ⟨t, hinside, ht, _⟩ := atEndOfLine_inside hspace (by decide)
  obtain ⟨u, hbar, hu, _⟩ := test_rejected (p := .char '|') false ht rfl
  rw [← hv] at hu
  obtain ⟨start, hstart, hitems⟩ := items_comes hw hu
  exact ⟨start, hstart, .behind (reaching_of_ok hinside) <| .behind (reaching_of_ok hbar) <|
    hitems.reaching _⟩

/-- Behind its tabs, a line that begins with a brace comes to an embedding. -/
theorem content_comes {number count : Nat} {owed : Bool}
    (hs : s.cursor.At { bytes := ascii ['\x7b'] ++ rest } line owed)
    (hnumber : (if owed then line + 1 else line) = number) :
    ∃ start : Scanner, start.cursor.At { bytes := rest } number false ∧
      ComesTo start Stop.error (fun line d => .directive d ∈ line.fragments) (content count) s := by
  obtain ⟨start, hbrace, hstart, _⟩ := test_admitted (p := .char '\x7b') false hs rfl
  rw [hnumber] at hstart
  have hline : ComesTo start id Eq embeddingLine start := by
    refine (ComesTo.self start).bind ?_
    rintro _ d t _ u rfl hok
    obtain ⟨_, _, _, hok⟩ := bind_eq_ok.mp hok
    cases hok
    rfl
  refine ⟨start, hstart,
    .behind (reaching_of_ok hbrace) <| (hline.reaching (.indented count)).bind ?_⟩
  rintro _ d t _ u rfl hok
  cases hok
  exact List.mem_singleton_self _

/-- Behind its tabs, a line that begins with a tag and other items comes to an embedding. -/
theorem content_comes_behind {number count : Nat} {owed : Bool} {x : List UInt8}
    (hx : IsRun .letter x) (hw : w = [] ∨ ∃ is, ItemsText w is)
    (hs : s.cursor.At { bytes := x ++ (w ++ (ascii [' '] ++ (ascii ['\x7b'] ++ rest))) } line owed)
    (hnumber : (if owed then line + 1 else line) = number) :
    ∃ start : Scanner, start.cursor.At { bytes := rest } number false ∧
      ComesTo start Stop.error (fun line d => .directive d ∈ line.fragments) (content count) s := by
  have hstops : Stops .letter (w ++ (ascii [' '] ++ (ascii ['\x7b'] ++ rest))) := by
    rcases hw with rfl | ⟨is, hw⟩
    · exact stops_cons rfl
    · cases hw <;> exact stops_cons rfl
  obtain ⟨u, hbrace, hu, _⟩ := gives_test_not (p := .char '\x7b') false
    (stops_char_of_isRun hx rfl) hs rfl
  obtain ⟨v, hname, hv, _⟩ := gives_tagName hx hstops hu rfl
  rw [lineAfter_append, owedAfter_append, lineAfter_of_ne_nil _ _ (by simpa using hx.1),
    owedAfter_of_ne_nil _ (by simpa using hx.1), hnumber] at hv
  have hline : Scan.line v = .ok number v := by rw [Scan.line, hv.line_eq]
  obtain ⟨start, hstart, hbody⟩ := tagBody_comes count number (text x) hw hv
  refine ⟨start, hstart, .behind (reaching_of_ok hbrace) <| .behind (reaching_of_ok hname) <|
    .behind (reaching_of_ok hline) <| hbody.bind ?_⟩
  rintro _ d t _ u ⟨is, rfl, hd⟩ hok
  cases hok
  have hfragment : Fragment.directive d ∈ is.flatMap Nesting.itemFragments :=
    List.mem_flatMap.mpr ⟨.directive d, hd, by simp [Nesting.itemFragments]⟩
  simp [Line.fragments, Nesting.tagFragments, hfragment]

/-- A line comes where its content does. -/
theorem read_comes {count : Nat} {start t : Scanner}
    (hread : Line.read s = (content count >>= fun entry => pure (some entry)) t)
    (h : ComesTo start Stop.error (fun line d => .directive d ∈ line.fragments) (content count) t) :
    ComesTo start Stop.error
      (fun line? d => ∀ line, line? = some line → .directive d ∈ line.fragments) Line.read s := by
  refine (h.bind ?_).of_run_eq hread
  rintro line d t line? u hd hok _ rfl
  cases hok
  exact hd

/-- Behind the tabs of a line, or behind its tag and other items, an embedding is read from its
second brace on. The line stops where the embedding does, and has its directive if it is read. -/
theorem read_of_lead {number : Nat} {owed : Bool} (hlead : Lead lead)
    (hs : s.cursor.At { bytes := lead ++ (ascii ['\x7b'] ++ rest) } line owed)
    (hnumber : (if owed then line + 1 else line) = number) :
    ∃ start : Scanner, start.cursor.At { bytes := rest } number false ∧
      ComesTo start Stop.error
        (fun line? d => ∀ line, line? = some line → .directive d ∈ line.fragments) Line.read s := by
  cases hlead with
  | margin count =>
    obtain ⟨t, line', owed', hread, ht, hsame⟩ := read_eq_content hs (by decide) (by decide)
    obtain ⟨start, hstart, hcontent⟩ := content_comes ht (hsame.trans hnumber)
    exact ⟨start, hstart, read_comes hread hcontent⟩
  | @tag count x w hx hw =>
    obtain ⟨b, x', hx'⟩ := List.exists_cons_of_ne_nil hx.1
    have hb : Pattern.letter.admits b = true := hx.2 b (by simp [hx'])
    have hne (b' : UInt8) (hb' : Pattern.letter.admits b' = false) : b ≠ b' := by
      rintro rfl
      rw [hb] at hb'
      cases hb'
    simp only [List.append_assoc] at hs
    rw [hx', List.cons_append] at hs
    obtain ⟨t, line', owed', hread, ht, hsame⟩ := read_eq_content hs (hne 9 rfl) (hne 10 rfl)
    rw [← List.cons_append, ← hx'] at ht
    obtain ⟨start, hstart, hcontent⟩ := content_comes_behind hx hw ht (hsame.trans hnumber)
    exact ⟨start, hstart, read_comes hread hcontent⟩

/-- A line that begins with an embedding, or has one behind its tag and other items, puts out its
directive. -/
theorem directive_mem_of_lead {d : Directive} {entry : Line} (hlead : Lead lead)
    (hw : Embedding w d) (hline : LineText 1 (lead ++ (w ++ rest)) entry) :
    .directive d ∈ entry.fragments := by
  obtain ⟨v, rfl, hgives⟩ := gives_embedding hw
  let s : Scanner :=
    Scanner.ofSource (Source.ofBytes (lead ++ (ascii ['\x7b'] ++ v ++ rest) ++ [10]))
  have hs : s.cursor.At { bytes := lead ++ (ascii ['\x7b'] ++ v ++ rest) ++ [10] } 1 false :=
    Cursor.at_ofBytes _
  obtain ⟨_, hread, _⟩ := read_of_lineText hs rfl hline
    (lineEnd_newline _) fun _ => List.cons_ne_nil _ _
  simp only [List.append_assoc] at hs
  obtain ⟨start, hstart, hcomes⟩ := read_of_lead hlead hs rfl
  obtain ⟨_, hembedding, _⟩ := hgives _ _ hstart rfl
  exact hcomes.has d _ hembedding _ _ hread entry rfl

end Scan

end TabMarkup
