import TabMarkup.Proofs.Directive.Opening

/-!
# What is read as an embedding is one

The readers of embeddings take nothing but texts of the grammar of embeddings, and answer with the
directives that these texts are.
-/

namespace TabMarkup.Scan

open Grammar Directive

/-- A mark takes its own character. -/
theorem takes_mark {ch : Char} (hch : (Pattern.char ch).admits 10 = false) :
    Takes (mark ch) fun c w _ c' => w = ascii [ch] ∧ c' = c := by
  apply ((takes_skip hch).bind (takes_ite (takes_pure ()) (takes_fail _))).mono
  rintro c w a c' ⟨_, _, _, _, rfl, ⟨rfl, rfl, rfl⟩ | ⟨rfl, rfl, rfl⟩, h⟩
  · rcases h with ⟨_, rfl, _, rfl⟩ | ⟨h, _⟩
    · exact ⟨rfl, rfl⟩
    · cases h
  · rcases h with ⟨h, _⟩ | ⟨_, h⟩
    · cases h
    · exact h.elim

/-- A word takes an identifier. -/
theorem takes_word : Takes word fun c w _ c' => IsRun .identifier w ∧ c' = c ++ w := by
  have hbranch : ∀ n : Nat, Takes
      (if n = 0 then fail .malformedEmbedding else pure () : Scan Unit)
      fun c w _ c' => n ≠ 0 ∧ w = [] ∧ c' = c := by
    intro n
    split
    · exact (takes_fail _).mono fun _ _ _ _ h => h.elim
    · rename_i hn
      exact (takes_pure _).mono fun _ _ _ _ h => ⟨hn, h.1, h.2.2⟩
  apply ((takes_countWhile true rfl).bind hbranch).mono
  rintro c w a c' ⟨_, u, _, _, rfl, ⟨hu, rfl, rfl⟩, hn, rfl, rfl⟩
  rw [List.append_nil]
  exact ⟨⟨fun hnil => hn (by simp [hnil]), hu⟩, rfl⟩

/-- An identifier, as text. -/
theorem takes_identifier :
    Takes identifier fun _ w name _ => IsRun .identifier w ∧ name = text w := by
  apply (takes_clearScratch.bind fun _ => takes_word.bind fun _ => takes_takeScratch).mono
  rintro c w name c' ⟨_, _, _, _, rfl, ⟨rfl, rfl⟩, _, u, _, _, rfl, ⟨hu, rfl⟩, rfl, rfl, _⟩
  simpa using hu

/-- The closing braces that were missing. -/
theorem takes_close (d : Directive) (missing : Nat) :
    Takes (close d missing) fun _ w d' _ =>
      w = ascii (List.replicate missing '\x7d') ∧ d' = d := by
  induction missing with
  | zero => exact (takes_pure d).mono fun _ _ _ _ h => ⟨h.1, h.2.1⟩
  | succ missing ih =>
    apply ((takes_skip rfl).bind (takes_ite ih (takes_fail _))).mono
    rintro c w d' c' ⟨_, _, _, _, rfl, ⟨rfl, rfl, _⟩ | ⟨rfl, _, _⟩, h⟩
    · rcases h with ⟨_, rfl, rfl⟩ | ⟨h, _⟩
      · exact ⟨rfl, rfl⟩
      · cases h
    · rcases h with ⟨h, _⟩ | ⟨_, h⟩
      · cases h
      · exact h.elim

/-- What follows a dollar sign: a name with the brace that closes it, or a method of a name. -/
theorem takes_boundText : Takes boundText fun _ w d _ =>
    ∃ v, DirectiveText v d ∧ ascii ['$'] ++ w = v ++ d.closing := by
  refine (takes_identifier.bind fun name => (takes_skip rfl).bind
    (takes_ite (takes_pure (Directive.value name)) <|
      (takes_mark rfl).bind fun _ => (takes_mark rfl).bind fun _ =>
      takes_identifier.bind fun method => (takes_mark rfl).bind fun _ =>
      (takes_mark rfl).bind fun _ => takes_pure (Directive.call name method))).mono ?_
  rintro c w d c' ⟨_, x, _, _, rfl, ⟨hx, rfl⟩, _, _, _, _, rfl, hbrace, hrest⟩
  rcases hrest with ⟨rfl, rfl, rfl, _⟩ | ⟨rfl, _, _, _, _, rfl, ⟨rfl, _⟩, _, _, _, _, rfl, ⟨rfl, _⟩,
    _, y, _, _, rfl, ⟨hy, rfl⟩, _, _, _, _, rfl, ⟨rfl, _⟩, _, _, _, _, rfl, ⟨rfl, _⟩, rfl, rfl, _⟩
  · rcases hbrace with ⟨_, rfl, _⟩ | ⟨h, _⟩
    · exact ⟨_, DirectiveText.value hx, by simp [closing, missing]⟩
    · cases h
  · rcases hbrace with ⟨h, _⟩ | ⟨_, rfl, _⟩
    · cases h
    · exact ⟨_, DirectiveText.call hx hy, by simp [closing, missing, ascii]⟩

/-- Identifiers with backslashes between them, all of which are kept. -/
theorem takes_segments {hword : Forward word} :
    Takes (separatedBy true (.char '\\') word hword) fun c w _ c' =>
      Segments w ∧ c' = c ++ w := by
  refine takes_separatedBy rfl takes_word ?_ ?_
  · rintro c w a c' ⟨hw, rfl⟩
    exact ⟨Segments.single hw, rfl⟩
  · rintro c w a d b v as e ⟨hw, rfl⟩ hb ⟨hv, rfl⟩
    have hsegments := Segments.cons hw hv
    rw [← admits_char.mp hb] at hsegments
    exact ⟨by simpa using hsegments, by simp⟩

/-- What follows two braces and no dollar sign: a method or a property of what a path names. -/
theorem takes_staticText : Takes staticText fun _ w d _ =>
    ∃ v, DirectiveText v d ∧ w = v ++ d.closing := by
  refine (takes_clearScratch.bind fun _ => (takes_test true rfl).bind fun _ =>
    takes_segments.bind fun _ => takes_takeScratch.bind fun path =>
    (takes_mark rfl).bind fun _ => (takes_mark rfl).bind fun _ => (takes_skip rfl).bind
    (takes_ite
      (takes_identifier.bind fun property => takes_pure (Directive.staticProperty path property)) <|
      takes_identifier.bind fun method => (takes_mark rfl).bind fun _ =>
      (takes_mark rfl).bind fun _ => takes_pure (Directive.staticCall path method))).mono ?_
  rintro c w d c' ⟨_, _, _, _, rfl, ⟨rfl, rfl⟩, _, r, _, token, rfl, hroot, _, p, _, _, rfl,
    ⟨hp, rfl⟩, _, _, _, _, rfl, ⟨rfl, rfl, _⟩, _, _, _, _, rfl, ⟨rfl, _⟩, _, _, _, _, rfl,
    ⟨rfl, _⟩, _, _, _, _, rfl, hdollar, hrest⟩
  have hpath : token = r ∧ Path (r ++ p) := by
    rcases hroot with ⟨_, b, hb, rfl, rfl⟩ | ⟨_, rfl, rfl⟩
    · rw [admits_char.mp hb]
      exact ⟨rfl, Path.rooted hp⟩
    · exact ⟨rfl, Path.plain hp⟩
  obtain ⟨rfl, hpath⟩ := hpath
  rcases hrest with ⟨rfl, _, y, _, _, rfl, ⟨hy, rfl⟩, rfl, rfl, _⟩ | ⟨rfl, _, y, _, _, rfl,
    ⟨hy, rfl⟩, _, _, _, _, rfl, ⟨rfl, _⟩, _, _, _, _, rfl, ⟨rfl, _⟩, rfl, rfl, _⟩
  · rcases hdollar with ⟨_, rfl, _⟩ | ⟨h, _⟩
    · exact ⟨_, DirectiveText.staticProperty hpath hy, by simp [closing, missing, ascii]⟩
    · cases h
  · rcases hdollar with ⟨h, _⟩ | ⟨_, rfl, _⟩
    · cases h
    · exact ⟨_, DirectiveText.staticCall hpath hy, by simp [closing, missing, ascii]⟩

/-- What follows two braces, up to where it is known which directive it is. -/
theorem takes_directiveText : Takes directiveText fun _ w d _ =>
    ∃ v, DirectiveText v d ∧ w = v ++ d.closing := by
  refine ((takes_skip rfl).bind (takes_ite takes_boundText takes_staticText)).mono ?_
  rintro c w d c' ⟨_, _, _, _, rfl, ⟨rfl, rfl, _⟩ | ⟨rfl, rfl, _⟩, ⟨hdollar, hw⟩ | ⟨hdollar, hw⟩⟩
  · exact hw
  · cases hdollar
  · cases hdollar
  · exact hw

/-- An embedding after its first brace. -/
theorem takes_embedding : Takes embedding fun _ w d _ => Embedding (ascii ['\x7b'] ++ w) d := by
  rw [embedding_eq]
  refine ((takes_demand false rfl).bind fun _ =>
    takes_directiveText.bind fun d => takes_close d d.missing).mono ?_
  rintro c w d c' ⟨_, _, _, _, rfl, ⟨b, hb, rfl, _⟩, d', _, _, _, rfl, ⟨v, hv, rfl⟩, rfl, rfl⟩
  rw [admits_char.mp hb, List.append_assoc v, closing_append]
  exact embedding_iff.mpr ⟨v, by simp [ascii], hv⟩

end TabMarkup.Scan
