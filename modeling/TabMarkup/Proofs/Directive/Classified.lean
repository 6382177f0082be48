import TabMarkup.Proofs.Directive.Completeness
import TabMarkup.Proofs.Directive.Soundness
import TabMarkup.Proofs.Line.WellFormed

/-!
# What is wrong with an embedding

A text behind two braces is a directive that is closed by two more, or it begins with a directive
that is not closed, or it is none. The reader of embeddings tells these three apart exactly, and
there is no other fault inside of an embedding (`embedding_of_classified`).
-/

namespace TabMarkup

namespace Grammar

open Utf8

/-- What comes of a text behind two braces: a directive and what stands behind its closing braces,
or what is wrong with the embedding. -/
inductive Classified : List UInt8 → Except Fault (Directive × List UInt8) → Prop where
  | recognized {v : List UInt8} {d : Directive} (hv : DirectiveText v d) (rest : List UInt8) :
    Classified (v ++ ascii ['\x7d', '\x7d'] ++ rest) (.ok (d, rest))
  | unclosed {v rest : List UInt8} {d : Directive} (hv : DirectiveText v d) (htold : Told d rest)
    (hopen : ∀ rest', rest ≠ ascii ['\x7d', '\x7d'] ++ rest') :
    Classified (v ++ rest) (.error (.unclosedEmbedding (text (ascii ['\x7b', '\x7b'] ++ v))))
  | malformed {r : List UInt8}
    (hnone : ∀ v rest d, r = v ++ rest → DirectiveText v d → ¬ Told d rest) :
    Classified r (.error .malformedEmbedding)

/-- Something comes of every text. -/
theorem exists_classified (r : List UInt8) : ∃ outcome, Classified r outcome := by
  by_cases htext : ∃ v rest d, r = v ++ rest ∧ DirectiveText v d ∧ Told d rest
  · obtain ⟨v, rest, d, rfl, hv, htold⟩ := htext
    by_cases hclosed : ∃ rest', rest = ascii ['\x7d', '\x7d'] ++ rest'
    · obtain ⟨rest', rfl⟩ := hclosed
      rw [← List.append_assoc]
      exact ⟨_, .recognized hv rest'⟩
    · exact ⟨_, .unclosed hv htold fun rest' h => hclosed ⟨rest', h⟩⟩
  · exact ⟨_, .malformed fun v rest d hr hv htold => htext ⟨v, rest, d, hr, hv, htold⟩⟩

/-! ## The texts of directives -/

theorem DirectiveText.newline_notMem {v : List UInt8} {d : Directive} (hv : DirectiveText v d) :
    (10 : UInt8) ∉ v := by
  have hembedding := (embedding_iff.mpr ⟨v, rfl, hv⟩).newline_notMem
  simp only [List.mem_append, not_or] at hembedding
  exact hembedding.1.2

/-- ASCII bytes are the characters of this text. -/
def Spells (v : List UInt8) (characters : List Char) : Prop :=
  (∀ b ∈ v, b < 0x80) ∧ v.map asciiChar = characters

theorem Spells.append {u v : List UInt8} {us vs : List Char} (hu : Spells u us)
    (hv : Spells v vs) : Spells (u ++ v) (us ++ vs) :=
  ⟨List.forall_mem_append.mpr ⟨hu.1, hv.1⟩, by rw [List.map_append, hu.2, hv.2]⟩

theorem Spells.text_eq {v : List UInt8} {characters : List Char} (h : Spells v characters) :
    text v = String.ofList characters := by
  rw [← h.2, ← toList_text_ascii h.1, String.ofList_toList]

theorem spells_text {v : List UInt8} (hv : ∀ b ∈ v, b < 0x80) : Spells v (text v).toList :=
  ⟨hv, (toList_text_ascii hv).symm⟩

theorem IsRun.spells {x : List UInt8} (hx : IsRun .identifier x) : Spells x (text x).toList :=
  spells_text hx.isIdentifier.1

theorem Path.spells {p : List UInt8} (hp : Path p) : Spells p (text p).toList := by
  apply spells_text
  cases hp with
  | plain hw => exact hw.isPath.1
  | rooted hw => exact List.forall_mem_cons.mpr ⟨by decide, hw.isPath.1⟩

instance (v : List UInt8) (characters : List Char) : Decidable (Spells v characters) :=
  inferInstanceAs (Decidable (_ ∧ _))

/-- What is written of a directive is its text. -/
theorem DirectiveText.spells {v : List UInt8} {d : Directive} (hv : DirectiveText v d) :
    Spells v d.body := by
  have hdollar : Spells (ascii ['$']) ['$'] := by decide +kernel
  have harrow : Spells (ascii ['-', '>']) ['-', '>'] := by decide +kernel
  have hcall : Spells (ascii ['(', ')']) ['(', ')'] := by decide +kernel
  have hcolons : Spells (ascii [':', ':']) [':', ':'] := by decide +kernel
  have hproperty : Spells (ascii [':', ':', '$']) [':', ':', '$'] := by decide +kernel
  cases hv with
  | value hx => exact hdollar.append hx.spells
  | call hx hy => exact (((hdollar.append hx.spells).append harrow).append hy.spells).append hcall
  | staticCall hp hy => exact ((hp.spells.append hcolons).append hy.spells).append hcall
  | staticProperty hp hy => exact (hp.spells.append hproperty).append hy.spells

/-- The text of an embedding that is not closed is what was written of it. -/
theorem DirectiveText.opening_eq {v : List UInt8} {d : Directive} (hv : DirectiveText v d) :
    String.ofList d.opening = text (ascii ['\x7b', '\x7b'] ++ v) := by
  have hbraces : Spells (ascii ['\x7b', '\x7b']) ['\x7b', '\x7b'] := by decide +kernel
  exact (hbraces.append hv.spells).text_eq.symm

end Grammar

namespace Scan

open Grammar Directive

/-! ## Faults before it is known which directive it is -/

/-- Where the steps stop inside a line that can be read to its end, the embedding is none. -/
def OnlyMalformed {α : Type} (m : Scan α) : Prop :=
  ∀ ⦃s t : Scanner⦄ ⦃e : ParseError⦄ ⦃bytes : List UInt8⦄ ⦃line : Nat⦄,
    s.cursor.At { bytes } line false → m s = .error e t → e = ⟨.malformedEmbedding, line⟩

/-- After a first part that takes bytes of the line, the second part is still on this line. -/
theorem OnlyMalformed.bind {α β : Type} {m : Scan α} {f : α → Scan β}
    {L : List UInt8 → List UInt8 → α → List UInt8 → Prop} (hm : OnlyMalformed m)
    (htakes : Takes m L) (hf : ∀ a, OnlyMalformed (f a)) : OnlyMalformed (m >>= f) := by
  intro s t e bytes line hs herror
  rcases bind_eq_error.mp herror with hfirst | ⟨a, u, hfirst, hsecond⟩
  · exact hm hs hfirst
  · obtain ⟨w, rest, _, _, hu⟩ := htakes hs hfirst
    exact hf a (at_of_takes hu) hsecond

theorem onlyMalformed_pure {α : Type} (a : α) : OnlyMalformed (pure a : Scan α) := by
  intro s t e bytes line hs herror
  cases herror

theorem onlyMalformed_ite {α : Type} {m m' : Scan α} (hm : OnlyMalformed m)
    (hm' : OnlyMalformed m') (b : Bool) : OnlyMalformed (if b = true then m else m') := by
  cases b
  · exact hm'
  · exact hm

theorem onlyMalformed_fail {α : Type} : OnlyMalformed (fail .malformedEmbedding : Scan α) := by
  intro s t e bytes line hs herror
  cases herror
  rw [hs.line_eq]

theorem onlyMalformed_clearScratch : OnlyMalformed clearScratch := by
  intro s t e bytes line hs herror
  cases herror

theorem onlyMalformed_takeScratch : OnlyMalformed takeScratch := by
  intro s t e bytes line hs herror
  cases herror

/-- Trying a byte never stops, since the bytes can be read. -/
theorem onlyMalformed_test (keep : Bool) (p : Pattern) : OnlyMalformed (test keep p) := by
  intro s t e bytes line hs herror
  cases bytes with
  | nil =>
    obtain ⟨u, hok, _⟩ := test_over keep (p := p) hs
    cases hok.symm.trans herror
  | cons b bytes =>
    cases hb : p.admits b with
    | true =>
      obtain ⟨u, hok, _⟩ := test_admitted keep hs hb
      cases hok.symm.trans herror
    | false =>
      obtain ⟨u, hok, _⟩ := test_rejected keep hs hb
      cases hok.symm.trans herror

theorem onlyMalformed_countWhile (keep : Bool) {p : Pattern} (hp : p.admits 10 = false) :
    OnlyMalformed (countWhile keep p) := by
  intro s
  induction hn : s.unread using Nat.strongRecOn generalizing s with
  | ind n ih =>
    intro t e bytes line hs herror
    rw [countWhile_eq] at herror
    rcases bind_eq_error.mp herror with htest | ⟨more, u, htest, herror⟩
    · exact onlyMalformed_test keep p hs htest
    · obtain ⟨w, rest, _, _, hu⟩ := takes_test keep hp hs htest
      cases more with
      | false => cases herror
      | true =>
        rcases bind_eq_error.mp herror with hrun | ⟨k, v, _, herror⟩
        · exact ih u.unread (hn ▸ test_unread_lt htest) rfl (at_of_takes hu) hrun
        · cases herror

theorem onlyMalformed_separatedBy {α : Type} {keep : Bool} {mark : Pattern} {item : Scan α}
    {hitem : Forward item} {L : List UInt8 → List UInt8 → α → List UInt8 → Prop}
    (hmark : mark.admits 10 = false) (hmalformed : OnlyMalformed item) (htakes : Takes item L) :
    OnlyMalformed (separatedBy keep mark item hitem) := by
  intro s
  induction hn : s.unread using Nat.strongRecOn generalizing s with
  | ind n ih =>
    intro t e bytes line hs herror
    rw [separatedBy_eq] at herror
    rcases bind_eq_error.mp herror with hfirst | ⟨a, u, hfirst, herror⟩
    · exact hmalformed hs hfirst
    obtain ⟨_, rest, _, _, hu⟩ := htakes hs hfirst
    rcases bind_eq_error.mp herror with htest | ⟨more, v, htest, herror⟩
    · exact onlyMalformed_test keep mark (at_of_takes hu) htest
    obtain ⟨_, rest', _, _, hv⟩ := takes_test keep hmark (at_of_takes hu) htest
    cases more with
    | false => cases herror
    | true =>
      have hlt : v.unread < n :=
        hn ▸ Nat.lt_of_lt_of_le (test_unread_lt htest) (hitem.ok_le hfirst)
      rcases bind_eq_error.mp herror with hrest | ⟨as, w, _, herror⟩
      · exact ih v.unread hlt rfl (at_of_takes hv) hrest
      · cases herror

theorem onlyMalformed_mark {ch : Char} (hch : (Pattern.char ch).admits 10 = false) :
    OnlyMalformed (mark ch) :=
  (onlyMalformed_test false _).bind (takes_skip hch) fun b =>
    onlyMalformed_ite (onlyMalformed_pure ()) onlyMalformed_fail b

theorem onlyMalformed_word : OnlyMalformed word := by
  refine (onlyMalformed_countWhile true rfl).bind (takes_countWhile true rfl) fun n => ?_
  split
  · exact onlyMalformed_fail
  · exact onlyMalformed_pure ()

theorem onlyMalformed_identifier : OnlyMalformed identifier :=
  onlyMalformed_clearScratch.bind takes_clearScratch fun _ =>
    onlyMalformed_word.bind takes_word fun _ => onlyMalformed_takeScratch

theorem onlyMalformed_boundText : OnlyMalformed boundText := by
  refine onlyMalformed_identifier.bind takes_identifier fun name =>
    (onlyMalformed_test false _).bind (takes_skip rfl) (onlyMalformed_ite ?_ ?_)
  · exact onlyMalformed_pure _
  · exact (onlyMalformed_mark rfl).bind (takes_mark rfl) fun _ =>
      (onlyMalformed_mark rfl).bind (takes_mark rfl) fun _ =>
      onlyMalformed_identifier.bind takes_identifier fun method =>
      (onlyMalformed_mark rfl).bind (takes_mark rfl) fun _ =>
      (onlyMalformed_mark rfl).bind (takes_mark rfl) fun _ => onlyMalformed_pure _

theorem onlyMalformed_staticText : OnlyMalformed staticText := by
  refine onlyMalformed_clearScratch.bind takes_clearScratch fun _ =>
    (onlyMalformed_test true _).bind (takes_test true rfl) fun _ =>
    (onlyMalformed_separatedBy rfl onlyMalformed_word takes_word).bind takes_segments fun _ =>
    onlyMalformed_takeScratch.bind takes_takeScratch fun path =>
    (onlyMalformed_mark rfl).bind (takes_mark rfl) fun _ =>
    (onlyMalformed_mark rfl).bind (takes_mark rfl) fun _ =>
    (onlyMalformed_test false _).bind (takes_skip rfl) (onlyMalformed_ite ?_ ?_)
  · exact onlyMalformed_identifier.bind takes_identifier fun property => onlyMalformed_pure _
  · exact onlyMalformed_identifier.bind takes_identifier fun method =>
      (onlyMalformed_mark rfl).bind (takes_mark rfl) fun _ =>
      (onlyMalformed_mark rfl).bind (takes_mark rfl) fun _ => onlyMalformed_pure _

/-- Until it is known which directive it is, every fault is that it is none. -/
theorem onlyMalformed_directiveText : OnlyMalformed directiveText :=
  (onlyMalformed_test false _).bind (takes_skip rfl)
    (onlyMalformed_ite onlyMalformed_boundText onlyMalformed_staticText)

/-! ## The braces that close a directive -/

variable {s : Scanner} {bytes : List UInt8} {line : Nat}

theorem close_of_braces (d : Directive) (missing : Nat) {rest : List UInt8}
    (hs : s.cursor.At { bytes := ascii (List.replicate missing '\x7d') ++ rest } line false) :
    ∃ s', close d missing s = .ok d s' ∧ s'.cursor.At { bytes := rest } line false := by
  obtain ⟨s', hok, hs', _⟩ := gives_close d missing hs rfl
  exact ⟨s', hok, at_of_takes hs'⟩

/-- Where other bytes come or not enough of them, a directive is not closed. -/
theorem close_of_other (d : Directive) (missing : Nat)
    (hs : s.cursor.At { bytes } line false)
    (hother : ∀ rest, bytes ≠ ascii (List.replicate missing '\x7d') ++ rest) :
    ∃ s', close d missing s =
      .error ⟨.unclosedEmbedding (String.ofList d.opening), line⟩ s' := by
  induction missing generalizing s bytes with
  | zero => exact absurd rfl (hother bytes)
  | succ missing ih =>
    have hfault {t : Scanner} (htest : test false (.char '\x7d') s = .ok false t)
        (ht : t.cursor.line = line) : ∃ s', close d (missing + 1) s =
          .error ⟨.unclosedEmbedding (String.ofList d.opening), line⟩ s' := by
      refine ⟨t, ?_⟩
      rw [close, skip, bind_of_ok htest, if_neg (by decide), fail, ht]
    cases bytes with
    | nil =>
      obtain ⟨t, htest, ht, _⟩ := test_over false (p := .char '\x7d') hs
      exact hfault htest ht.line_eq
    | cons b bytes =>
      cases hb : (Pattern.char '\x7d').admits b with
      | false =>
        obtain ⟨t, htest, ht, _⟩ := test_rejected false hs hb
        exact hfault htest ht.line_eq
      | true =>
        obtain rfl : b = '\x7d'.toUInt8 := eq_of_beq hb
        obtain ⟨t, htest, ht, _⟩ := test_admitted false hs hb
        obtain ⟨s', herror⟩ := ih ht fun rest hrest =>
          hother rest (congrArg (List.cons '\x7d'.toUInt8) hrest)
        exact ⟨s', by rw [close, skip, bind_of_ok htest, if_pos rfl, herror]⟩

/-! ## Embeddings -/

/-- A directive that is a text may have a longer name than was taken for it, but it is there. -/
theorem exists_told {v : List UInt8} {d : Directive} (hv : DirectiveText v d)
    (rest : List UInt8) : ∃ v' rest' d', v ++ d.closing ++ rest = v' ++ rest' ∧
      DirectiveText v' d' ∧ Told d' rest' := by
  cases hv with
  | value hx => exact ⟨_, _, _, List.append_assoc _ _ _, .value hx, List.prefix_append _ _⟩
  | call hx hy => exact ⟨_, _, _, List.append_assoc _ _ _, .call hx hy, trivial⟩
  | staticCall hp hy => exact ⟨_, _, _, List.append_assoc _ _ _, .staticCall hp hy, trivial⟩
  | @staticProperty p y hp hy =>
    obtain ⟨more, rest', rfl, hmore, hrest'⟩ := exists_run .identifier rest
    have hlonger : IsRun .identifier (y ++ more) := by
      refine ⟨fun hnil => hy.1 (List.append_eq_nil_iff.mp hnil).1, fun b hb => ?_⟩
      rcases List.mem_append.mp hb with hb | hb
      · exact hy.2 b hb
      · exact hmore b hb
    refine ⟨_, rest', _, ?_, .staticProperty hp hlonger, hrest'⟩
    simp [closing, missing, ascii]

/-- The brace that tells a name from an object comes next. -/
theorem exists_closing {d : Directive} {rest : List UInt8} (htold : Told d rest) :
    ∃ rest', rest = d.closing ++ rest' := by
  cases d with
  | value name =>
    obtain ⟨rest', hrest⟩ := htold
    exact ⟨rest', hrest.symm⟩
  | _ => exact ⟨rest, rfl⟩

/-- The rest of an embedding comes to what its text is. -/
theorem embedding_of_classified {outcome : Except Fault (Directive × List UInt8)}
    (houtcome : Classified bytes outcome)
    (hs : s.cursor.At { bytes := ascii ['\x7b'] ++ bytes } line false) :
    (∀ d rest, outcome = .ok (d, rest) →
      ∃ s', embedding s = .ok d s' ∧ s'.cursor.At { bytes := rest } line false) ∧
    ∀ fault, outcome = .error fault → ∃ s', embedding s = .error ⟨fault, line⟩ s' := by
  obtain ⟨t, hbrace, ht, _⟩ :=
    gives_demand (p := .char '\x7b') (b := '\x7b'.toUInt8) false rfl rfl hs rfl
  have ht := at_of_takes ht
  have hread : embedding s = (do let d ← directiveText; close d d.missing : Scan Directive) t := by
    rw [embedding_eq, require, bind_of_ok hbrace]
  rw [hread]
  cases houtcome with
  | @recognized v d hv rest =>
    refine ⟨fun d' rest' h => ?_, nofun⟩
    cases h
    have htold := told_of_closed d rest
    rw [List.append_assoc, ← closing_append, List.append_assoc, ← List.append_assoc v] at ht
    rw [← closing_append, List.append_assoc] at htold
    obtain ⟨u, htext, hu, _⟩ := gives_directiveText hv htold ht rfl
    obtain ⟨s', hclose, hs'⟩ := close_of_braces d d.missing (at_of_takes hu)
    exact ⟨s', by rw [bind_of_ok htext, hclose], hs'⟩
  | @unclosed v rest d hv htold hopen =>
    refine ⟨nofun, fun fault h => ?_⟩
    cases h
    obtain ⟨rest, rfl⟩ := exists_closing htold
    rw [← List.append_assoc] at ht
    obtain ⟨u, htext, hu, _⟩ := gives_directiveText hv htold ht rfl
    obtain ⟨s', hclose⟩ := close_of_other d d.missing (at_of_takes hu) fun rest' hrest =>
      hopen rest' (by rw [hrest, ← List.append_assoc, closing_append])
    exact ⟨s', by rw [bind_of_ok htext, hclose, hv.opening_eq]⟩
  | malformed hnone =>
    refine ⟨nofun, fun fault h => ?_⟩
    cases h
    cases htext : directiveText t with
    | error e u =>
      obtain rfl := onlyMalformed_directiveText ht htext
      exact ⟨u, bind_of_error htext⟩
    | ok d u =>
      obtain ⟨w, rest, hsplit, ⟨v, hv, rfl⟩, _⟩ := takes_directiveText ht htext
      obtain ⟨v', rest', d', hlonger, hv', htold⟩ := exists_told hv rest
      exact absurd htold (hnone v' rest' d' (hsplit.trans hlonger) hv')

end Scan

end TabMarkup
