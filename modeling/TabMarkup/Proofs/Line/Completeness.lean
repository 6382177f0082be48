import TabMarkup.Proofs.Directive.Completeness
import TabMarkup.Proofs.Line.EndOfLine

/-!
# What is in the grammar is read

Each reader inside a line, before a text of its part of the grammar, succeeds with what the text
says and takes no more than the text.
-/

namespace TabMarkup.Scan

open Grammar Directive Line

variable {c w x rest : List UInt8}

/-! ## Items -/

/-- A quote of either kind. -/
theorem gives_quote {q : Char} (hq : q = '\x22' ∨ q = '\'') :
    Gives quote c (ascii [q]) q.toUInt8 (c ++ ascii [q]) rest := by
  rcases hq with rfl | rfl
  · exact Gives.bind (v := []) (gives_test true rfl rfl) (Gives.then (gives_pure _))
  · have hsecond : Gives quote c ([] ++ (ascii ['\''] ++ [])) ('\''.toUInt8)
        (c ++ ascii ['\'']) rest :=
      Gives.bind (gives_test_not true (stops_cons rfl)) <| Gives.else <|
        Gives.bind (gives_demand true rfl rfl) (gives_pure _)
    simpa using hsecond

/-- An attribute, as written. -/
theorem gives_attr (hw : Attribute w) : Gives attr c w (text w) [] rest := by
  cases hw with
  | @quoted x v q hx hq hv =>
    have hnewline : (Pattern.byte q.toUInt8).admits 10 = false := by
      rcases hq with rfl | rfl <;> rfl
    have hend : Stops (.quoted q.toUInt8) (ascii [q] ++ rest) :=
      stops_cons (by simp [Pattern.admits])
    have hread : Gives attr c (x ++ (ascii ['='] ++ (ascii [q] ++ (v ++ (ascii [q] ++ [])))))
        (text (x ++ ascii ['='] ++ ascii [q] ++ v ++ ascii [q])) [] rest :=
      Gives.bind (u := []) gives_clearScratch <|
      Gives.bind (gives_expectRun rfl hx (stops_cons rfl)) <|
      Gives.bind (gives_demand true (b := '='.toUInt8) rfl rfl) <| Gives.bind (gives_quote hq) <|
      Gives.bind (gives_countWhile true rfl hv hend) <|
      Gives.bind (gives_demand true hnewline (beq_self_eq_true _)) gives_takeScratch
    simpa [ascii] using hread

theorem stops_of_attribute (hw : Attribute w) : Stops (.char '\x7b') (w ++ rest) := by
  cases hw with
  | quoted hx hq hv => simpa using stops_char_of_isRun hx rfl

/-- An attribute or an embedding. -/
theorem gives_item {i : Item} (hw : ItemText w i) : Gives item c w i [] rest := by
  cases hw with
  | attr hw =>
    exact Gives.of_eq (Gives.bind (gives_test_not false (by simpa using stops_of_attribute hw)) <|
      Gives.else <| Gives.bind (v := []) (gives_attr hw) (gives_pure _)) (by simp)
  | directive hw =>
    obtain ⟨v, rfl, hv⟩ := gives_embedding hw
    exact Gives.of_eq (Gives.bind (gives_skip rfl) <| Gives.then <|
      Gives.bind (v := []) (hv _ _) (gives_pure _)) (by simp)

/-- The items of a tag after the first space, where no other item follows. -/
theorem gives_itemList {is : List Item} (hw : ItemsText w is) (hrest : Stops (.char ' ') rest) :
    ∃ v, w = ascii [' '] ++ v ∧
      ∀ c, Gives (separatedBy false (.char ' ') item forward_item) c v is [] rest := by
  induction hw with
  | @single w i hw =>
    exact ⟨w, rfl, fun c => gives_separatedBy_single (gives_item hw) hrest⟩
  | @cons w v i is hw hv ih =>
    obtain ⟨v, rfl, hlist⟩ := ih
    refine ⟨w ++ ' '.toUInt8 :: v, by simp [ascii], fun c => ?_⟩
    exact gives_separatedBy_cons rfl rfl (gives_item hw) (hlist _)

theorem gives_tagName (hx : IsRun .letter x) (hrest : Stops .letter rest) :
    Gives tagName c x (text x) [] rest :=
  Gives.of_eq (Gives.bind gives_clearScratch
    (Gives.bind (v := []) (gives_expectRun rfl hx hrest) gives_takeScratch)) (by simp)

/-! ## Lines -/

/-- A newline comes next, or nothing does. -/
def LineEnd (tail : List UInt8) : Prop :=
  ∀ b ∈ tail.head?, b = 10

theorem lineEnd_nil : LineEnd [] := by
  intro b hb
  cases hb

theorem lineEnd_newline (tail : List UInt8) : LineEnd (10 :: tail) := by
  intro b hb
  cases hb
  rfl

theorem LineEnd.stops {p : Pattern} {tail : List UInt8} (htail : LineEnd tail)
    (hp : p.admits 10 = false) : Stops p tail := by
  intro b hb
  rw [htail b hb]
  exact hp

variable {s : Scanner} {line : Nat} {tail : List UInt8}

theorem atEndOfLine_of_lineEnd (hs : s.cursor.At { bytes := tail } line false)
    (htail : LineEnd tail) :
    ∃ s', atEndOfLine s = .ok true s' ∧ AfterLine s' { bytes := tail } line := by
  cases tail with
  | nil =>
    obtain ⟨t, hend, ht⟩ := atEndOfLine_over hs
    exact ⟨t, hend, Or.inr ⟨rfl, ht⟩⟩
  | cons b tail =>
    obtain rfl : b = 10 := htail b rfl
    obtain ⟨t, hend, ht⟩ := atEndOfLine_newline hs
    exact ⟨t, hend, Or.inl ⟨_, rfl, ht⟩⟩

theorem endOfLine_of_lineEnd (hs : s.cursor.At { bytes := tail } line false)
    (htail : LineEnd tail) :
    ∃ s', endOfLine s = .ok () s' ∧ AfterLine s' { bytes := tail } line := by
  obtain ⟨t, hend, ht⟩ := atEndOfLine_of_lineEnd hs htail
  exact ⟨t, by rw [endOfLine, bind_of_ok hend]; rfl, ht⟩

/-- Literal text and the end of its line. -/
theorem literal_of_run {v : List UInt8} (hs : s.cursor.At { bytes := v ++ tail } line false)
    (hv : IsRun .content v) (htail : LineEnd tail) :
    ∃ s', literal s = .ok (.text (text v)) s' ∧ AfterLine s' { bytes := tail } line := by
  have hclear : clearScratch s = .ok () { s with scratch := #[] } := rfl
  obtain ⟨t, hrun, ht, hc⟩ := gives_expectRun (s := { s with scratch := #[] }) rfl hv
    (htail.stops rfl) hs rfl
  have htoken : takeScratch t = .ok (text v) { t with scratch := #[] } := by
    rw [takeScratch, hc]
    rfl
  obtain ⟨s', hend, hs'⟩ := endOfLine_of_lineEnd (s := { t with scratch := #[] }) ht htail
  refine ⟨s', ?_, hs'⟩
  rw [literal, bind_of_ok hclear, bind_of_ok hrun, bind_of_ok htoken, bind_of_ok hend]
  rfl

/-- Items and the end of their line. -/
theorem items_of_itemsText {is : List Item} (hs : s.cursor.At { bytes := w ++ tail } line false)
    (hw : ItemsText w is) (htail : LineEnd tail) :
    ∃ s', items s = .ok (.items is) s' ∧ AfterLine s' { bytes := tail } line := by
  obtain ⟨v, rfl, hlist⟩ := gives_itemList hw (htail.stops rfl)
  rw [List.append_assoc] at hs
  obtain ⟨t, hspace, ht, _⟩ := gives_demand (p := .char ' ') false rfl rfl hs rfl
  obtain ⟨u, hok, hu, _⟩ := hlist _ ht rfl
  obtain ⟨s', hend, hs'⟩ := endOfLine_of_lineEnd hu htail
  exact ⟨s', by rw [items, require, bind_of_ok hspace, bind_of_ok hok, bind_of_ok hend]; rfl, hs'⟩

/-- A step inside a line that succeeds does so however much of the line is known. -/
theorem reaching_of_ok {α : Type} {reached : Reached} {m : Scan α} {t : Scanner} {a : α}
    (h : m s = .ok a t) : reaching reached m s = .ok a t :=
  reaching_eq_ok.mpr h

/-- What follows a tag name, and the end of the line. -/
theorem tagBody_of_bodyText (tabs number : Nat) (name : String) {body : TagBody}
    (hs : s.cursor.At { bytes := w ++ tail } line false) (hw : BodyText w body)
    (htail : LineEnd tail) :
    ∃ s', tagBody tabs number name s = .ok body s' ∧ AfterLine s' { bytes := tail } line := by
  cases hw with
  | bare =>
    obtain ⟨s', hend, hs'⟩ := atEndOfLine_of_lineEnd hs htail
    exact ⟨s', by rw [tagBody, bind_of_ok (reaching_of_ok hend)]; rfl, hs'⟩
  | text hv =>
    rw [List.append_assoc] at hs
    obtain ⟨t, hinside, ht, _⟩ := atEndOfLine_inside hs (by decide)
    obtain ⟨u, hbar, hu, _⟩ := gives_test (p := .char '|') false rfl rfl ht rfl
    obtain ⟨s', hok, hs'⟩ := literal_of_run hu hv htail
    refine ⟨s', ?_, hs'⟩
    rw [tagBody, bind_of_ok (reaching_of_ok hinside)]
    change (reaching _ _ >>= _) t = _
    rw [skip, bind_of_ok (reaching_of_ok hbar)]
    exact reaching_of_ok hok
  | items hw =>
    obtain ⟨v, hv⟩ : ∃ v, w = ' '.toUInt8 :: v := by
      cases hw <;> exact ⟨_, rfl⟩
    have hspace : s.cursor.At { bytes := ' '.toUInt8 :: (v ++ tail) } line false := by
      rw [hv] at hs
      exact hs
    obtain ⟨t, hinside, ht, _⟩ := atEndOfLine_inside hspace (by decide)
    obtain ⟨u, hbar, hu, _⟩ := gives_test_not (p := .char '|') false (stops_cons rfl) ht rfl
    have hat : u.cursor.At { bytes := w ++ tail } line false := by
      rw [hv]
      exact hu
    obtain ⟨s', hok, hs'⟩ := items_of_itemsText hat hw htail
    refine ⟨s', ?_, hs'⟩
    rw [tagBody, bind_of_ok (reaching_of_ok hinside)]
    change (reaching _ _ >>= _) t = _
    rw [skip, bind_of_ok (reaching_of_ok hbar)]
    exact reaching_of_ok hok

/-- A tag name ends where what follows it begins. -/
theorem stops_of_bodyText {body : TagBody} (hw : BodyText w body) (htail : LineEnd tail) :
    Stops .letter (w ++ tail) := by
  cases hw with
  | bare => exact htail.stops rfl
  | text hv => exact stops_cons rfl
  | items hw => cases hw <;> exact stops_cons rfl

variable {owed : Bool} {count : Nat}

/-- A directive on a line of its own, after its tabs. -/
theorem content_of_embedding {d : Directive} (hs : s.cursor.At { bytes := w ++ tail } line owed)
    (hw : Embedding w d) (htail : LineEnd tail) :
    ∃ s', content count s = .ok (.directive count d) s' ∧
      AfterLine s' { bytes := tail } (if owed then line + 1 else line) := by
  obtain ⟨v, rfl, hread⟩ := gives_embedding hw
  rw [List.append_assoc] at hs
  obtain ⟨t, hbrace, ht, _⟩ := gives_test (p := .char '\x7b') false rfl rfl hs rfl
  rw [lineAfter_of_ne_nil _ _ (by simp), owedAfter_of_ne_nil _ (by simp)] at ht
  obtain ⟨u, hembedding, hu, _⟩ := hread _ _ ht rfl
  obtain ⟨s', hend, hs'⟩ := endOfLine_of_lineEnd hu htail
  have hline : embeddingLine t = .ok d s' := by
    rw [embeddingLine, bind_of_ok hembedding, bind_of_ok hend]
    rfl
  refine ⟨s', ?_, hs'⟩
  rw [content, skip, bind_of_ok (reaching_of_ok hbrace)]
  change (reaching _ _ >>= _) t = _
  rw [bind_of_ok (reaching_of_ok hline)]
  rfl

/-- A tag after its tabs. -/
theorem content_of_tag {body : TagBody} (hs : s.cursor.At { bytes := x ++ w ++ tail } line owed)
    (hx : IsRun .letter x) (hw : BodyText w body) (htail : LineEnd tail) :
    ∃ s', content count s =
        .ok (.tag count (if owed then line + 1 else line) (text x) body) s' ∧
      AfterLine s' { bytes := tail } (if owed then line + 1 else line) := by
  rw [List.append_assoc] at hs
  obtain ⟨t, hbrace, ht, _⟩ := gives_test_not (p := .char '\x7b') false
    (stops_char_of_isRun hx rfl) hs rfl
  obtain ⟨u, hname, hu, _⟩ := gives_tagName hx (stops_of_bodyText hw htail) ht rfl
  rw [lineAfter_append, owedAfter_append, lineAfter_of_ne_nil _ _ (by simpa using hx.1),
    owedAfter_of_ne_nil _ (by simpa using hx.1)] at hu
  obtain ⟨s', hbody, hs'⟩ :=
    tagBody_of_bodyText count (if owed then line + 1 else line) (text x) hu hw htail
  have hline : Scan.line u = .ok (if owed then line + 1 else line) u := by
    rw [Scan.line, hu.line_eq]
  refine ⟨s', ?_, hs'⟩
  rw [content, skip, bind_of_ok (reaching_of_ok hbrace)]
  change (reaching _ _ >>= _) t = _
  rw [bind_of_ok (reaching_of_ok hname), bind_of_ok (reaching_of_ok hline), bind_of_ok hbody]
  rfl

/-- The tabs of a line are counted, and the line is the same that comes next. -/
theorem margin_of_tabs (hs : s.cursor.At { bytes := tabs count ++ w } line owed)
    (hw : Stops (.char '\t') w) :
    ∃ t line' owed', skipWhile (.char '\t') s = .ok count t ∧
      t.cursor.At { bytes := w } line' owed' ∧
      (if owed' then line' + 1 else line') = if owed then line + 1 else line := by
  have htabs : ∀ b ∈ tabs count, (Pattern.char '\t').admits b = true := by
    intro b hb
    rw [List.eq_of_mem_replicate hb]
    rfl
  obtain ⟨t, hok, ht, _⟩ := gives_countWhile false rfl htabs hw hs rfl
  rw [tabs, List.length_replicate] at hok
  refine ⟨t, _, _, hok, ht, ?_⟩
  cases owed <;> cases count <;> rfl

/-- Behind its tabs, where neither a newline nor the end comes, a line is its content. -/
theorem read_eq_content {b : UInt8} (hs : s.cursor.At { bytes := tabs count ++ b :: w } line owed)
    (htab : b ≠ 9) (hnewline : b ≠ 10) :
    ∃ t line' owed', Line.read s = (content count >>= fun entry => pure (some entry)) t ∧
      t.cursor.At { bytes := b :: w } line' owed' ∧
      (if owed' then line' + 1 else line') = if owed then line + 1 else line := by
  obtain ⟨t, line', owed', hmargin, ht, hnumber⟩ :=
    margin_of_tabs hs (stops_cons (beq_false_of_ne htab))
  obtain ⟨u, hskip, hu, _, heof⟩ :=
    test_rejected (p := .char '\n') false ht (beq_false_of_ne hnewline)
  have hisEof : isEof u = .ok false u := by rw [isEof, heof]
  refine ⟨u, line', owed', ?_, hu, hnumber⟩
  rw [Line.read, bind_of_ok (reaching_of_ok hmargin), skip, bind_of_ok (reaching_of_ok hskip)]
  change (reaching _ _ >>= _) u = _
  rw [bind_of_ok (reaching_of_ok hisEof)]
  rfl

/-- What the content of a line begins with is neither a tab nor a newline. -/
theorem read_of_content {entry : Line} {b : UInt8}
    (hs : s.cursor.At { bytes := tabs count ++ b :: w } line owed) (htab : b ≠ 9)
    (hnewline : b ≠ 10) {P : Scanner → Prop}
    (hcontent : ∀ (t : Scanner) line' owed', t.cursor.At { bytes := b :: w } line' owed' →
      (if owed' then line' + 1 else line') = (if owed then line + 1 else line) →
      ∃ s', content count t = .ok entry s' ∧ P s') :
    ∃ s', Line.read s = .ok (some entry) s' ∧ P s' := by
  obtain ⟨t, line', owed', hread, ht, hnumber⟩ := read_eq_content hs htab hnewline
  obtain ⟨s', hok, hs'⟩ := hcontent t line' owed' ht hnumber
  refine ⟨s', ?_, hs'⟩
  rw [hread, bind_of_ok hok]
  rfl

/-- A line of the grammar is read as what it says, up to its end. A line of tabs only is one if
a newline ends it. -/
theorem read_of_lineText {number : Nat} {entry : Line}
    (hs : s.cursor.At { bytes := w ++ tail } line owed)
    (hnumber : (if owed then line + 1 else line) = number) (hw : LineText number w entry)
    (htail : LineEnd tail) (hblank : entry = .blank → tail ≠ []) :
    ∃ s', Line.read s = .ok (some entry) s' ∧ AfterLine s' { bytes := tail } number := by
  subst hnumber
  cases hw with
  | blank count =>
    obtain ⟨b, rest, rfl⟩ := List.exists_cons_of_ne_nil (hblank rfl)
    obtain rfl : b = 10 := htail b rfl
    obtain ⟨t, line', owed', hmargin, ht, hnumber⟩ := margin_of_tabs hs (stops_cons rfl)
    obtain ⟨s', hskip, hs', _⟩ := test_admitted (p := .char '\n') false ht rfl
    rw [hnumber] at hs'
    refine ⟨s', ?_, Or.inl ⟨{ bytes := rest }, rfl, hs'⟩⟩
    rw [Line.read, bind_of_ok (reaching_of_ok hmargin), skip, bind_of_ok (reaching_of_ok hskip)]
    rfl
  | @directive count v d hv =>
    obtain ⟨v', rfl, _⟩ := gives_embedding hv
    rw [List.append_assoc] at hs
    refine read_of_content (w := v' ++ tail) hs (by decide) (by decide)
      fun t line' owed' ht hnumber => ?_
    rw [← hnumber]
    exact content_of_embedding ht hv htail
  | @tag count x v body hx hv =>
    obtain ⟨b, x', hcons⟩ := List.exists_cons_of_ne_nil hx.1
    have hb : Pattern.letter.admits b = true := hx.2 b (by simp [hcons])
    have htab : b ≠ 9 := by
      rintro rfl
      cases hb
    have hnewline : b ≠ 10 := by
      rintro rfl
      cases hb
    rw [List.append_assoc, List.append_assoc] at hs
    refine read_of_content (b := b) (w := x' ++ (v ++ tail)) (by simpa [hcons] using hs) htab
      hnewline fun t line' owed' ht hnumber => ?_
    rw [← hnumber]
    exact content_of_tag (by simpa [hcons] using ht) hx hv htail

/-- Where the source ends with tabs only, no line is left. -/
theorem read_of_tabs (hs : s.cursor.At { bytes := tabs count } line owed) :
    ∃ s', Line.read s = .ok none s' := by
  obtain ⟨t, line', owed', hmargin, ht, _⟩ :=
    margin_of_tabs (w := []) (by simpa using hs) (stops_nil _)
  obtain ⟨u, hskip, hu, _, heof⟩ := test_over (p := .char '\n') false ht
  have hisEof : isEof u = .ok true u := by rw [isEof, heof]
  refine ⟨u, ?_⟩
  rw [Line.read, bind_of_ok (reaching_of_ok hmargin), skip, bind_of_ok (reaching_of_ok hskip)]
  change (reaching _ _ >>= _) u = _
  rw [bind_of_ok (reaching_of_ok hisEof)]
  rfl

theorem read_over (hs : s.cursor.At { bytes := [] } line owed) :
    ∃ s', Line.read s = .ok none s' :=
  read_of_tabs (show s.cursor.At { bytes := tabs 0 } line owed from hs)

end TabMarkup.Scan
