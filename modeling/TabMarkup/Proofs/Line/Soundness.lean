import TabMarkup.Proofs.Directive.Soundness
import TabMarkup.Proofs.Line.EndOfLine

/-!
# What is read is in the grammar

Each reader inside a line takes nothing but texts of its part of the grammar, and answers with
what they say.
-/

namespace TabMarkup.Scan

open Grammar Directive Line

/-! ## Items -/

/-- A quote of either kind, which is kept. -/
theorem takes_quote : Takes quote fun c w q c' =>
    ∃ ch : Char, (ch = '\x22' ∨ ch = '\'') ∧ q = ch.toUInt8 ∧ w = ascii [ch] ∧
      c' = c ++ w := by
  refine ((takes_test true (p := .char '\x22') rfl).bind (takes_ite (takes_pure _)
    ((takes_demand true (p := .char '\'') rfl).bind fun _ => takes_pure _))).mono ?_
  rintro c w q c' ⟨_, _, _, _, rfl, hfirst, hrest⟩
  rcases hrest with ⟨rfl, rfl, rfl, rfl⟩ | ⟨rfl, _, _, _, _, rfl, ⟨b, hb, rfl, rfl⟩, rfl, rfl, rfl⟩
  · rcases hfirst with ⟨_, b, hb, rfl, rfl⟩ | ⟨h, _⟩
    · exact ⟨'\x22', Or.inl rfl, rfl, by simpa using admits_char.mp hb, by simp⟩
    · cases h
  · rcases hfirst with ⟨h, _⟩ | ⟨_, rfl, rfl⟩
    · cases h
    · exact ⟨'\'', Or.inr rfl, rfl, by simpa using admits_char.mp hb, by simp⟩

/-- A name with its quoted value, as written. -/
theorem takes_attr : Takes attr fun _ w a _ => Attribute w ∧ a = text w := by
  intro s s' a bytes failure? line owed hs hok
  obtain ⟨_, t, hclear, hok⟩ := bind_eq_ok.mp hok
  obtain ⟨_, rest, rfl, ⟨rfl, hempty⟩, ht⟩ := takes_clearScratch hs hclear
  obtain ⟨_, t₁, hname, hok⟩ := bind_eq_ok.mp hok
  obtain ⟨x, rest, rfl, ⟨hx, hc₁⟩, ht₁⟩ := takes_expectRun rfl ht hname
  obtain ⟨_, t₂, hequals, hok⟩ := bind_eq_ok.mp hok
  obtain ⟨_, rest, rfl, ⟨b, hb, rfl, hc₂⟩, ht₂⟩ :=
    takes_demand true (p := .char '=') rfl ht₁ hequals
  obtain ⟨_, t₃, hquote, hok⟩ := bind_eq_ok.mp hok
  obtain ⟨_, rest, rfl, ⟨q, hq, rfl, rfl, hc₃⟩, ht₃⟩ := takes_quote ht₂ hquote
  obtain ⟨n, t₄, hvalue, hok⟩ := bind_eq_ok.mp hok
  obtain ⟨v, rest, rfl, ⟨hv, _, hc₄⟩, ht₄⟩ :=
    takes_countWhile true (p := .quoted q.toUInt8) rfl ht₃ hvalue
  obtain ⟨_, t₅, hend, hok⟩ := bind_eq_ok.mp hok
  have hnewline : (Pattern.byte q.toUInt8).admits 10 = false := by
    rcases hq with rfl | rfl <;> rfl
  obtain ⟨_, rest, rfl, ⟨e, he, rfl, hc₅⟩, ht₅⟩ := takes_demand true hnewline ht₄ hend
  obtain ⟨_, rest, rfl, ⟨rfl, rfl, _⟩, ht₆⟩ := takes_takeScratch ht₅ hok
  obtain rfl : b = '='.toUInt8 := eq_of_beq hb
  obtain rfl : e = q.toUInt8 := eq_of_beq he
  refine ⟨x ++ ascii ['=', q] ++ v ++ ascii [q], rest, by simp [ascii], ⟨.quoted hx hq hv, ?_⟩,
    by simpa [ascii] using ht₆⟩
  rw [hc₅, hc₄, hc₃, hc₂, hc₁, hempty]
  simp [ascii]

/-- An attribute or an embedding. -/
theorem takes_item : Takes item fun _ w i _ => ItemText w i := by
  refine ((takes_skip rfl).bind (takes_ite
    (takes_embedding.bind fun d => takes_pure (Item.directive d))
    (takes_attr.bind fun a => takes_pure (Item.attr a)))).mono ?_
  rintro c w i c' ⟨_, _, _, _, rfl, hbrace, hrest⟩
  rcases hrest with ⟨rfl, d, w, _, _, rfl, hw, rfl, rfl, _⟩ |
    ⟨rfl, a, w, _, _, rfl, ⟨hw, rfl⟩, rfl, rfl, _⟩
  · rcases hbrace with ⟨_, rfl, _⟩ | ⟨h, _⟩
    · simpa using ItemText.directive hw
    · cases h
  · rcases hbrace with ⟨h, _⟩ | ⟨_, rfl, _⟩
    · cases h
    · simpa using ItemText.attr hw

/-- The items of a tag after the first space. -/
theorem takes_itemList {hitem : Forward item} :
    Takes (separatedBy false (.char ' ') item hitem) fun _ w is _ =>
      ItemsText (ascii [' '] ++ w) is := by
  refine takes_separatedBy rfl takes_item ?_ ?_
  · intro c w i d hw
    exact ItemsText.single hw
  · intro c w i d b v is e hw hb hv
    obtain rfl : b = ' '.toUInt8 := List.singleton_inj.mp (admits_char.mp hb)
    simpa [ascii] using ItemsText.cons hw hv

/-- The name of a tag. -/
theorem takes_tagName : Takes tagName fun _ w name _ => IsRun .letter w ∧ name = text w := by
  refine (takes_clearScratch.bind fun _ => (takes_expectRun rfl).bind fun _ =>
    takes_takeScratch).mono ?_
  rintro c w name c' ⟨_, _, _, _, rfl, ⟨rfl, rfl⟩, _, x, _, _, rfl, ⟨hx, rfl⟩, rfl, rfl, _⟩
  simpa using hx

/-! ## Lines -/

variable {s s' : Scanner} {bytes : List UInt8} {failure? : Option String} {line : Nat}

/-- Literal text and the end of its line. -/
theorem literal_ok {body : TagBody} (hs : s.cursor.At { bytes, failure? } line false)
    (hok : literal s = .ok body s') :
    ∃ w rest, bytes = w ++ rest ∧ BodyText (ascii ['|'] ++ w) body ∧
      AfterLine s' { bytes := rest, failure? } line := by
  obtain ⟨_, t, hclear, hok⟩ := bind_eq_ok.mp hok
  obtain ⟨_, rest, rfl, ⟨rfl, hempty⟩, ht⟩ := takes_clearScratch hs hclear
  obtain ⟨_, t₁, hrun, hok⟩ := bind_eq_ok.mp hok
  obtain ⟨v, rest, rfl, ⟨hv, hc₁⟩, ht₁⟩ := takes_expectRun rfl ht hrun
  obtain ⟨_, t₂, htoken, hok⟩ := bind_eq_ok.mp hok
  obtain ⟨_, rest, rfl, ⟨rfl, rfl, _⟩, ht₂⟩ := takes_takeScratch ht₁ htoken
  obtain ⟨_, t₃, hend, hok⟩ := bind_eq_ok.mp hok
  cases hok
  refine ⟨v, rest, rfl, ?_, endOfLine_ok ht₂ hend⟩
  rw [hc₁, hempty]
  exact BodyText.text hv

/-- Items and the end of their line. -/
theorem items_ok {body : TagBody} (hs : s.cursor.At { bytes, failure? } line false)
    (hok : items s = .ok body s') :
    ∃ w rest, bytes = w ++ rest ∧ BodyText w body ∧
      AfterLine s' { bytes := rest, failure? } line := by
  obtain ⟨_, t, hspace, hok⟩ := bind_eq_ok.mp hok
  obtain ⟨_, rest, rfl, ⟨b, hb, rfl, _⟩, ht⟩ := takes_demand false (p := .char ' ') rfl hs hspace
  obtain ⟨is, t₁, hlist, hok⟩ := bind_eq_ok.mp hok
  obtain ⟨w, rest, rfl, hw, ht₁⟩ := takes_itemList ht hlist
  obtain ⟨_, t₂, hend, hok⟩ := bind_eq_ok.mp hok
  cases hok
  refine ⟨[b] ++ w, rest, by simp, ?_, endOfLine_ok ht₁ hend⟩
  rw [admits_char.mp hb]
  exact BodyText.items hw

/-- What follows a tag name, and the end of the line. -/
theorem tagBody_ok {tabs number : Nat} {name : String} {body : TagBody}
    (hs : s.cursor.At { bytes, failure? } line false)
    (hok : tagBody tabs number name s = .ok body s') :
    ∃ w rest, bytes = w ++ rest ∧ BodyText w body ∧
      AfterLine s' { bytes := rest, failure? } line := by
  obtain ⟨ended, t, hend, hok⟩ := bind_eq_ok.mp hok
  rcases atEndOfLine_ok hs (reaching_eq_ok.mp hend) with ⟨rfl, ht⟩ | ⟨rfl, ht⟩
  · cases hok
    exact ⟨[], bytes, rfl, BodyText.bare, ht⟩
  · obtain ⟨bar, t₁, hskip, hok⟩ := bind_eq_ok.mp hok
    obtain ⟨w, rest, rfl, hbar, ht₁⟩ := takes_skip rfl ht (reaching_eq_ok.mp hskip)
    have hok := reaching_eq_ok.mp hok
    rcases hbar with ⟨rfl, rfl, _⟩ | ⟨rfl, rfl, _⟩
    · obtain ⟨v, rest, rfl, hv, hafter⟩ := literal_ok ht₁ hok
      exact ⟨_, rest, by simp, hv, hafter⟩
    · exact items_ok ht₁ hok

/-- A directive on a line of its own, after its first brace. -/
theorem embeddingLine_ok {d : Directive} (hs : s.cursor.At { bytes, failure? } line false)
    (hok : embeddingLine s = .ok d s') :
    ∃ w rest, bytes = w ++ rest ∧ Embedding (ascii ['\x7b'] ++ w) d ∧
      AfterLine s' { bytes := rest, failure? } line := by
  obtain ⟨d, t, hembedding, hok⟩ := bind_eq_ok.mp hok
  obtain ⟨w, rest, rfl, hw, ht⟩ := takes_embedding hs hembedding
  obtain ⟨_, t₁, hend, hok⟩ := bind_eq_ok.mp hok
  cases hok
  exact ⟨w, rest, rfl, hw, endOfLine_ok ht hend⟩

/-- A line after its tabs. -/
theorem content_ok {count number : Nat} {owed : Bool} {entry : Line}
    (hs : s.cursor.At { bytes, failure? } line owed)
    (hnumber : (if owed then line + 1 else line) = number)
    (hok : content count s = .ok entry s') :
    ∃ w rest, bytes = w ++ rest ∧ LineText number (tabs count ++ w) entry ∧
      AfterLine s' { bytes := rest, failure? } number := by
  obtain ⟨brace, t, hskip, hok⟩ := bind_eq_ok.mp hok
  obtain ⟨_, rest, rfl, hbrace, ht⟩ := takes_skip rfl hs (reaching_eq_ok.mp hskip)
  rcases hbrace with ⟨rfl, rfl, _⟩ | ⟨rfl, rfl, _⟩
  · obtain ⟨d, t₁, hembedding, hok⟩ := bind_eq_ok.mp hok
    rw [lineAfter_of_ne_nil _ _ (by simp [ascii]), owedAfter_of_ne_nil _ (by simp [ascii]),
      hnumber] at ht
    obtain ⟨w, rest, rfl, hw, hafter⟩ := embeddingLine_ok ht (reaching_eq_ok.mp hembedding)
    cases hok
    exact ⟨_, rest, (List.append_assoc _ _ _).symm, LineText.directive hw, hafter⟩
  · obtain ⟨name, t₁, hname, hok⟩ := bind_eq_ok.mp hok
    obtain ⟨x, rest, rfl, ⟨hx, rfl⟩, ht₁⟩ := takes_tagName ht (reaching_eq_ok.mp hname)
    obtain ⟨n, t₂, hline, hok⟩ := bind_eq_ok.mp hok
    cases reaching_eq_ok.mp hline
    obtain ⟨body, t₃, hbody, hok⟩ := bind_eq_ok.mp hok
    rw [lineAfter_append, owedAfter_append, lineAfter_of_ne_nil _ _ (by simpa using hx.1),
      owedAfter_of_ne_nil _ (by simpa using hx.1), hnumber] at ht₁
    obtain ⟨w, rest, rfl, hw, hafter⟩ := tagBody_ok ht₁ hbody
    cases hok
    refine ⟨x ++ w, rest, by simp, ?_, hafter⟩
    rw [ht₁.line_eq, ← List.append_assoc]
    exact LineText.tag hx hw

/-- Tabs, as many as are told. -/
theorem takes_margin : Takes (skipWhile (.char '\t')) fun c w n c' => w = tabs n ∧ c' = c := by
  apply (takes_countWhile false rfl).mono
  rintro c w n c' ⟨hw, rfl, rfl⟩
  refine ⟨List.eq_replicate_iff.mpr ⟨rfl, fun b hb => ?_⟩, rfl⟩
  exact eq_of_beq (hw b hb)

/-- What is read of a source is a line, or no more than tabs at the end. -/
theorem read_ok {number : Nat} {owed : Bool} {found? : Option Line}
    (hs : s.cursor.At { bytes, failure? } line owed)
    (hnumber : (if owed then line + 1 else line) = number)
    (hok : read s = .ok found? s') :
    (∃ entry w rest, found? = some entry ∧ bytes = w ++ rest ∧ LineText number w entry ∧
      AfterLine s' { bytes := rest, failure? } number) ∨
    (∃ count, found? = none ∧ bytes = tabs count ∧ failure? = none) := by
  obtain ⟨count, t, hmargin, hok⟩ := bind_eq_ok.mp hok
  obtain ⟨_, rest, rfl, ⟨rfl, _⟩, ht⟩ := takes_margin hs (reaching_eq_ok.mp hmargin)
  obtain ⟨newline, t₁, hskip, hok⟩ := bind_eq_ok.mp hok
  have hnumber' : (if owedAfter owed (tabs count) then lineAfter line owed (tabs count) + 1
      else lineAfter line owed (tabs count)) = number := by
    cases owed <;> cases count <;> exact hnumber
  rcases test_ok ht (reaching_eq_ok.mp hskip) with ⟨rfl, b, rest', hb, htape, hat, _⟩ |
    ⟨rfl, hat, _, heof, _⟩
  · obtain rfl : b = 10 := eq_of_beq hb
    cases htape
    cases hok
    rw [hnumber'] at hat
    exact Or.inl ⟨.blank, tabs count, _, rfl, rfl, LineText.blank count,
      Or.inl ⟨{ bytes := rest', failure? }, rfl, hat⟩⟩
  · obtain ⟨eof, t₂, hisEof, hok⟩ := bind_eq_ok.mp hok
    cases reaching_eq_ok.mp hisEof
    rw [heof] at hok
    by_cases hover : (⟨rest, failure?⟩ : Tape) = { bytes := [] }
    · cases hover
      cases hok
      exact Or.inr ⟨count, rfl, by simp, rfl⟩
    · rw [decide_eq_false hover] at hok
      obtain ⟨entry, t₃, hcontent, hok⟩ := bind_eq_ok.mp hok
      obtain ⟨w, rest', rfl, hw, hafter⟩ := content_ok hat hnumber' hcontent
      cases hok
      exact Or.inl ⟨entry, tabs count ++ w, rest', rfl, by simp, hw, hafter⟩

end TabMarkup.Scan
