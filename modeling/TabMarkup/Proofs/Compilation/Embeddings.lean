import TabMarkup.Proofs.Compilation.Directives
import TabMarkup.Proofs.Compilation.WithoutDirective
import TabMarkup.Proofs.Directive.Classified
import TabMarkup.Proofs.Line.Lead

/-!
# Embeddings of a source

What comes of an embedding depends on its line alone, and on no more of it than the embedding. Where
lines in front of it compile, an embedding that is none or that is not closed is the error of the
source, on its own line (`embedding_classified`).
-/

namespace TabMarkup

open Grammar Scan Compilation

/-! ## Up to the end of the line -/

/-- What begins a line and has no newline in it stands in the line. -/
theorem Scan.LineEnd.exists_of_append {u w rest tail : List UInt8} (htail : LineEnd tail)
    (hw : (10 : UInt8) ∉ w) (h : u ++ tail = w ++ rest) : ∃ v, u = w ++ v ∧ rest = v ++ tail := by
  rcases List.append_eq_append_iff.mp h with ⟨v, rfl, htail'⟩ | ⟨v, rfl, rfl⟩
  · cases v with
    | nil => exact ⟨[], by simp, htail'.symm⟩
    | cons b v =>
      obtain rfl : b = 10 := htail b (by rw [htail']; rfl)
      exact absurd (by simp) hw
  · exact ⟨v, rfl, rfl⟩

namespace Grammar

/-- The end of the line makes no difference to which directive it is. -/
theorem told_append_iff {d : Directive} {rest tail : List UInt8} (htail : LineEnd tail) :
    Told d (rest ++ tail) ↔ Told d rest := by
  cases d with
  | value name =>
    constructor
    · rintro ⟨rest', hrest⟩
      obtain ⟨v, rfl, _⟩ := htail.exists_of_append (by decide) hrest.symm
      exact List.prefix_append _ v
    · exact fun htold => htold.trans (List.prefix_append _ _)
  | call object method => exact Iff.rfl
  | staticCall path method => exact Iff.rfl
  | staticProperty path property =>
    cases rest with
    | nil => exact ⟨fun _ => stops_nil _, fun _ => htail.stops rfl⟩
    | cons b rest => exact Iff.rfl

/-- The lines behind make no difference to an embedding. -/
theorem Classified.append {r tail : List UInt8} {outcome : Except Fault (Directive × List UInt8)}
    (h : Classified r outcome) (htail : LineEnd tail) :
    Classified (r ++ tail) (outcome.map fun (d, rest) => (d, rest ++ tail)) := by
  cases h with
  | recognized hv rest =>
    rw [List.append_assoc]
    exact .recognized hv (rest ++ tail)
  | unclosed hv htold hopen =>
    rw [List.append_assoc]
    refine .unclosed hv ((told_append_iff htail).mpr htold) fun rest' hclosed => ?_
    obtain ⟨v, hrest, _⟩ := htail.exists_of_append (by decide) hclosed
    exact hopen v hrest
  | malformed hnone =>
    refine .malformed fun v rest d hr hv htold => ?_
    obtain ⟨rest, rfl, rfl⟩ := htail.exists_of_append hv.newline_notMem hr
    exact hnone v rest d rfl hv ((told_append_iff htail).mp htold)

/-- Behind what can stand in front of it, an embedding is the end of a line. -/
theorem Lead.lineText {lead w : List UInt8} {d : Directive} (hlead : Lead lead)
    (hw : Embedding w d) (number : Nat) : ∃ line, LineText number (lead ++ w) line := by
  cases hlead with
  | margin count => exact ⟨_, LineText.directive hw⟩
  | @tag count x v hx hv =>
    obtain ⟨is, his⟩ : ∃ is, ItemsText (v ++ (ascii [' '] ++ w)) is := by
      rcases hv with rfl | ⟨is, hv⟩
      · exact ⟨_, ItemsText.single (ItemText.directive hw)⟩
      · exact ⟨_, hv.concat (ItemText.directive hw)⟩
    refine ⟨.tag count number (text x) (.items is), ?_⟩
    rw [List.append_assoc (tabs count ++ x ++ v), List.append_assoc (tabs count ++ x)]
    exact LineText.tag hx (BodyText.items his)

theorem Lead.append_newline_notMem {lead w : List UInt8} {d : Directive} (hlead : Lead lead)
    (hw : Embedding w d) : (10 : UInt8) ∉ lead ++ w := by
  simp [hlead.newline_notMem, hw.newline_notMem]

/-- A text is one of the three things only, which is what the reader makes of it. -/
theorem Classified.unique {r : List UInt8}
    {outcome outcome' : Except Fault (Directive × List UInt8)} (h : Classified r outcome)
    (h' : Classified r outcome') : outcome' = outcome := by
  let s : Scanner := Scanner.ofSource (Source.ofBytes (ascii ['\x7b'] ++ r))
  have hs : s.cursor.At { bytes := ascii ['\x7b'] ++ r } 1 false := Cursor.at_ofBytes _
  obtain ⟨hok, herror⟩ := embedding_of_classified h hs
  obtain ⟨hok', herror'⟩ := embedding_of_classified h' hs
  cases outcome with
  | ok found =>
    obtain ⟨t, ht, hat⟩ := hok found.1 found.2 rfl
    cases outcome' with
    | ok found' =>
      obtain ⟨t', ht', hat'⟩ := hok' found'.1 found'.2 rfl
      rw [ht] at ht'
      injection ht' with hd hscanner
      subst hscanner
      have htape := hat.ahead_eq.symm.trans hat'.ahead_eq
      injection htape with hrest
      exact congrArg Except.ok (Prod.ext hd.symm hrest.symm)
    | error fault' =>
      obtain ⟨t', ht'⟩ := herror' fault' rfl
      rw [ht] at ht'
      cases ht'
  | error fault =>
    obtain ⟨t, ht⟩ := herror fault rfl
    cases outcome' with
    | ok found' =>
      obtain ⟨t', ht', _⟩ := hok' found'.1 found'.2 rfl
      rw [ht] at ht'
      cases ht'
    | error fault' =>
      obtain ⟨t', ht'⟩ := herror' fault' rfl
      rw [ht] at ht'
      cases ht'
      rfl

end Grammar

namespace Compilation

/-! ## In a source -/

/-- Behind a lead, an embedding that is none or is not closed is the error of its line. -/
theorem error?_of_lead {lead r : List UInt8} {fault : Fault} (hlead : Lead lead)
    (hr : Classified r (.error fault)) :
    (compile (.ofBytes (lead ++ (ascii ['\x7b', '\x7b'] ++ r)))).error? = some ⟨fault, 1⟩ := by
  have hs : (Scanner.ofSource (Source.ofBytes (lead ++ (ascii ['\x7b', '\x7b'] ++ r)))).cursor.At
      { bytes := lead ++ (ascii ['\x7b'] ++ (ascii ['\x7b'] ++ r)) } 1 false :=
    Cursor.at_ofBytes _
  obtain ⟨start, hstart, hcomes⟩ := read_of_lead hlead hs rfl
  obtain ⟨t, hfault⟩ := (embedding_of_classified hr hstart).2 fault rfl
  obtain ⟨stop, hstop, herror⟩ := hcomes.stops _ _ hfault
  rw [error?_compile, Line.readAll_of_error hstop, Option.map_some, herror]
  rfl

/-- A source that compiles puts out the directive of an embedding behind a lead. -/
theorem directive_mem_toList {source : Source} {before lead w rest : List UInt8} {d : Directive}
    {q : FragmentQueue} (hbefore : EndsLine before) (hlead : Lead lead) (hw : Embedding w d)
    (hsource : Delivers source (before ++ (lead ++ (w ++ rest))))
    (hq : (compile source).result = .ok q) : .directive d ∈ q.toList := by
  obtain ⟨bytes, whole, hdeliver, hwhole, hfragments⟩ := exists_document hq
  rw [hsource.deliver_eq] at hdeliver
  cases hdeliver
  obtain ⟨q, hq, hfragments'⟩ := exists_of_document hwhole
  rw [hfragments, ← hfragments']
  obtain ⟨⟨qa, hqa⟩, qb, hqb⟩ := (compile_append_ok_iff hbefore _).mp ⟨q, hq⟩
  obtain ⟨lines, hlines, _⟩ := exists_document_ofBytes hqb
  have hmoved (depth : Nat) (opened : List String) :
      Nesting.fragmentsOf depth opened (lines.map (Line.moved (before.count 10) 0)) =
        Nesting.fragmentsOf depth opened lines :=
    Nesting.fragmentsOf_map_moved (before.count 10) 0 depth opened lines
  rw [toList_behind hbefore hqa hq (hlines.moved (before.count 10)), hmoved]
  obtain ⟨rest', rows, hrows, _⟩ := exists_splitOn_append (hlead.append_newline_notMem hw) rest
  rw [← List.append_assoc, hrows, List.append_assoc] at hlines
  cases hlines with
  | @cons _ _ line _ lines hline hlines =>
    have hmem := directive_mem_of_lead hlead hw hline
    cases htabs : line.tabs? with
    | none =>
      rw [Line.tabs?_eq_none.mp htabs] at hmem
      cases hmem
    | some count =>
      rw [Nesting.fragmentsOf_cons htabs]
      simp [hmem]

/-- Behind a lead, an embedding that is closed is compiled. -/
theorem exists_of_lead {before lead w : List UInt8} {d : Directive} (hbefore : EndsLine before)
    (hok : ∃ q, (compile (.ofBytes before)).result = .ok q) (hlead : Lead lead)
    (hw : Embedding w d) :
    ∃ q, (compile (.ofBytes (before ++ (lead ++ w)))).result = .ok q ∧
      .directive d ∈ q.toList := by
  obtain ⟨line, hline⟩ := hlead.lineText hw 1
  have hdocument : Document 1 ((lead ++ w).splitOn 10) [line] := by
    rw [List.splitOn_eq_singleton (hlead.append_newline_notMem hw)]
    exact Document.cons hline (Document.nil _)
  obtain ⟨q', hq', _⟩ := exists_of_document hdocument
  obtain ⟨q, hq⟩ := (compile_append_ok_iff hbefore (lead ++ w)).mpr ⟨hok, q', hq'⟩
  have hsource : Delivers (.ofBytes (before ++ (lead ++ w))) (before ++ (lead ++ (w ++ []))) := by
    rw [List.append_nil]
    exact delivers_ofBytes _
  exact ⟨q, hq, directive_mem_toList hbefore hlead hw hsource hq⟩

end Compilation

/-- A text behind two braces at the beginning of a line, of an item or of anything else that is read
as an embedding is exactly one of three things, and the reader of embeddings makes of it what it is:
a directive that is closed; the beginning of one that is not closed, whose fault has what was
written of it; or none. Where the lines in front of it compile, the two faults are the error of the
source, on the line of the embedding. Where the embedding is closed, what stands up to there
compiles, and so does the directive if all of the source does. -/
theorem embedding_classified (r : List UInt8) :
    ∃ outcome, Classified r outcome ∧ (∀ other, Classified r other → other = outcome) ∧
      ∀ tail, LineEnd tail →
        (∀ (s : Scanner) (line : Nat),
          s.cursor.At { bytes := ascii ['\x7b'] ++ (r ++ tail) } line false →
          (∀ d rest, outcome = .ok (d, rest) → ∃ s', Directive.embedding s = .ok d s' ∧
            s'.cursor.At { bytes := rest ++ tail } line false) ∧
          ∀ fault, outcome = .error fault →
            ∃ s', Directive.embedding s = .error ⟨fault, line⟩ s') ∧
        ∀ source before lead, EndsLine before →
          (∃ q, (compile (.ofBytes before)).result = .ok q) → Lead lead →
          Delivers source (before ++ (lead ++ (ascii ['\x7b', '\x7b'] ++ (r ++ tail)))) →
          (∀ d rest, outcome = .ok (d, rest) →
            (∃ w, Embedding w d ∧ ascii ['\x7b', '\x7b'] ++ r = w ++ rest ∧
              ∃ q, (compile (.ofBytes (before ++ (lead ++ w)))).result = .ok q ∧
                .directive d ∈ q.toList) ∧
            ∀ q, (compile source).result = .ok q → .directive d ∈ q.toList) ∧
          ∀ fault, outcome = .error fault →
            (compile source).result = .error ⟨fault, before.count 10 + 1⟩ := by
  obtain ⟨outcome, houtcome⟩ := exists_classified r
  refine ⟨outcome, houtcome, fun other => houtcome.unique, fun tail htail => ⟨?_, ?_⟩⟩
  · intro s line hs
    obtain ⟨hok, herror⟩ := embedding_of_classified (houtcome.append htail) hs
    exact ⟨fun d rest h => hok d (rest ++ tail) (by rw [h]; rfl),
      fun fault h => herror fault (by rw [h]; rfl)⟩
  · intro source before lead hbefore hok hlead hsource
    refine ⟨fun d rest h => ?_, fun fault h => ?_⟩
    · subst h
      cases houtcome with
      | @recognized v _ hv _ =>
        have hw : Embedding (ascii ['\x7b', '\x7b'] ++ v ++ ascii ['\x7d', '\x7d']) d :=
          embedding_iff.mpr ⟨v, rfl, hv⟩
        have hsource' : Delivers source (before ++ (lead ++
            (ascii ['\x7b', '\x7b'] ++ v ++ ascii ['\x7d', '\x7d'] ++ (rest ++ tail)))) := by
          simpa only [List.append_assoc] using hsource
        exact ⟨⟨_, hw, by simp only [List.append_assoc], exists_of_lead hbefore hok hlead hw⟩,
          fun q => directive_mem_toList hbefore hlead hw hsource'⟩
    · subst h
      have hline := error?_of_lead hlead (houtcome.append htail)
      have herror := error?_behind hbefore hok hsource
      rw [hline, Option.map_some, Nat.add_comm] at herror
      exact error?_eq_some_iff.mp herror

/-- Behind the line `p` stands a tag with the attribute `c=''` and then `{{A::$b}`, which lacks a
brace, or `{{`, which lacks a directive. -/
theorem embedding_classified_behind_attribute :
    (compile [.data [0x70, 0x0A, 0x09, 0x62, 0x20, 0x63, 0x3D, 0x27, 0x27, 0x20, 0x7B],
        .interrupted, .data [0x7B, 0x41, 0x3A, 0x3A, 0x24, 0x62, 0x7D, 0x0A, 0x71]]).result =
      .error ⟨.unclosedEmbedding "\x7b\x7bA::$b", 2⟩ ∧
    (compile (.ofBytes
        [0x70, 0x0A, 0x09, 0x62, 0x20, 0x63, 0x3D, 0x27, 0x27, 0x20, 0x7B, 0x7B])).result =
      .error ⟨.malformedEmbedding, 2⟩ := by
  have hbefore : EndsLine [0x70, 0x0A] := Or.inr rfl
  have hok : ∃ q, (compile (.ofBytes [0x70, 0x0A])).result = .ok q :=
    error?_eq_none_iff.mp (by decide +kernel)
  have hattribute : Attribute [0x63, 0x3D, 0x27, 0x27] :=
    Attribute.quoted (x := [0x63]) (v := []) (q := '\'') ⟨by decide, by decide +kernel⟩ (Or.inr rfl)
      (by decide +kernel)
  have hlead : Lead [0x09, 0x62, 0x20, 0x63, 0x3D, 0x27, 0x27, 0x20] :=
    Lead.tag 1 (x := [0x62]) ⟨by decide, by decide +kernel⟩
      (Or.inr ⟨_, ItemsText.single (ItemText.attr hattribute)⟩)
  constructor
  · have hproperty : DirectiveText [0x41, 0x3A, 0x3A, 0x24, 0x62]
        (.staticProperty (text [0x41]) (text [0x62])) :=
      DirectiveText.staticProperty (p := [0x41]) (y := [0x62])
        (Path.plain (Segments.single ⟨by decide, by decide +kernel⟩)) ⟨by decide, by decide +kernel⟩
    have htext : text [0x7B, 0x7B, 0x41, 0x3A, 0x3A, 0x24, 0x62] = "\x7b\x7bA::$b" := by
      decide +kernel
    have hr : Classified ([0x41, 0x3A, 0x3A, 0x24, 0x62] ++ [0x7D])
        (.error (.unclosedEmbedding "\x7b\x7bA::$b")) :=
      htext ▸ Classified.unclosed hproperty (stops_cons rfl) fun rest' h => by simp [ascii] at h
    have hsource : Delivers
        [.data [0x70, 0x0A, 0x09, 0x62, 0x20, 0x63, 0x3D, 0x27, 0x27, 0x20, 0x7B],
          .interrupted, .data [0x7B, 0x41, 0x3A, 0x3A, 0x24, 0x62, 0x7D, 0x0A, 0x71]]
        [0x70, 0x0A, 0x09, 0x62, 0x20, 0x63, 0x3D, 0x27, 0x27, 0x20, 0x7B, 0x7B, 0x41, 0x3A, 0x3A,
          0x24, 0x62, 0x7D, 0x0A, 0x71] :=
      .data (by decide) (.interrupted (.data (by decide) .ended))
    have htail : LineEnd [0x0A, 0x71] := by
      intro b hb
      cases hb
      rfl
    obtain ⟨outcome, _, hunique, hall⟩ := embedding_classified _
    obtain rfl := hunique _ hr
    exact ((hall _ htail).2 _ _ _ hbefore hok hlead hsource).2 _ rfl
  · have hr : Classified [] (.error .malformedEmbedding) :=
      Classified.malformed fun v rest d hr hv _ => by cases hv <;> simp [ascii] at hr
    have htail : LineEnd [] := by
      intro b hb
      cases hb
    obtain ⟨outcome, _, hunique, hall⟩ := embedding_classified []
    obtain rfl := hunique _ hr
    exact ((hall [] htail).2 _ _ _ hbefore hok hlead (delivers_ofBytes _)).2 _ rfl

end TabMarkup
