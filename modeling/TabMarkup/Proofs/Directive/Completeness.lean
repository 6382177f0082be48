import TabMarkup.Proofs.Directive.Opening

/-!
# What is an embedding is read as one

Before a text of the grammar of embeddings, the readers of embeddings succeed with the directive
that the text is, and take no more than the text.
-/

namespace TabMarkup.Scan

open Grammar Directive

variable {c w x rest : List UInt8}

theorem gives_mark {ch : Char} (hch : (Pattern.char ch).admits 10 = false) :
    Gives (mark ch) c (ascii [ch]) () c rest :=
  Gives.bind (v := []) (gives_skip hch) (Gives.then (gives_pure ()))

theorem gives_word (hw : IsRun .identifier w) (hrest : Stops .identifier rest) :
    Gives word c w () (c ++ w) rest := by
  have hlength : w.length ≠ 0 := by simpa using hw.1
  refine Gives.of_eq (Gives.bind (v := []) (gives_countWhile true rfl hw.2 hrest) ?_) (by simp)
  simpa [hlength] using gives_pure ()

/-- An identifier, where no byte of an identifier follows. -/
theorem gives_identifier (hx : IsRun .identifier x) (hrest : Stops .identifier rest) :
    Gives identifier c x (text x) [] rest :=
  Gives.of_eq (Gives.bind gives_clearScratch
    (Gives.bind (v := []) (gives_word hx hrest) gives_takeScratch)) (by simp)

theorem gives_close (d : Directive) (missing : Nat) :
    Gives (close d missing) c (ascii (List.replicate missing '\x7d')) d c rest := by
  induction missing with
  | zero => exact gives_pure d
  | succ missing ih => exact Gives.bind (gives_skip rfl) (Gives.then ih)

/-- A name behind a dollar sign, and the first brace that closes it. -/
theorem gives_boundText_value (hx : IsRun .identifier x) :
    Gives boundText c (x ++ ascii ['\x7d']) (.value (text x)) [] rest :=
  Gives.of_eq (Gives.bind (v := ascii ['\x7d'] ++ []) (gives_identifier hx (stops_cons rfl)) <|
    Gives.bind (gives_skip rfl) (Gives.then (gives_pure (Directive.value (text x))))) (by simp)

/-- A name and a method of it, behind a dollar sign. -/
theorem gives_boundText_call {y : List UInt8} (hx : IsRun .identifier x)
    (hy : IsRun .identifier y) :
    Gives boundText c (x ++ ascii ['-', '>'] ++ y ++ ascii ['(', ')'])
      (.call (text x) (text y)) [] rest :=
  Gives.of_eq
    (Gives.bind (v := [] ++ (ascii ['-'] ++ (ascii ['>'] ++
        (y ++ (ascii ['('] ++ (ascii [')'] ++ []))))))
      (gives_identifier hx (stops_cons rfl)) <|
    Gives.bind (gives_test_not false (stops_cons rfl)) <| Gives.else <|
    Gives.bind (gives_mark rfl) <| Gives.bind (gives_mark rfl) <|
    Gives.bind (gives_identifier hy (stops_cons rfl)) <|
    Gives.bind (gives_mark rfl) <| Gives.bind (gives_mark rfl) <|
    gives_pure (Directive.call (text x) (text y)))
    (by simp [ascii])

/-- Identifiers with backslashes between them, where neither follows. -/
theorem gives_segments (hw : Segments w) : ∃ as, ∀ ⦃c rest : List UInt8⦄,
    Stops .identifier rest → Stops (.char '\\') rest →
    Gives (separatedBy true (.char '\\') word forward_word) c w as (c ++ w) rest := by
  induction hw with
  | single hw =>
    exact ⟨[()], fun c rest hrest hmark => gives_separatedBy_single (gives_word hw hrest) hmark⟩
  | @cons w v hw hv ih =>
    obtain ⟨as, has⟩ := ih
    refine ⟨() :: as, fun c rest hrest hmark => ?_⟩
    have hcons : Gives (separatedBy true (.char '\\') word forward_word) c (w ++ '\\'.toUInt8 :: v)
        (() :: as) _ rest :=
      gives_separatedBy_cons rfl (beq_self_eq_true _) (gives_word hw (stops_cons rfl))
        (has hrest hmark)
    simpa [ascii] using hcons

theorem stops_of_segments {ch : Char} (hch : Pattern.identifier.admits ch.toUInt8 = false)
    (hw : Segments w) : Stops (.char ch) (w ++ rest) := by
  cases hw with
  | single hw => exact stops_char_of_isRun hw hch
  | cons hw hv =>
    rw [List.append_assoc, List.append_assoc]
    exact stops_char_of_isRun hw hch

/-- A path does not begin with a dollar sign. -/
theorem stops_of_path (hw : Path w) : Stops (.char '$') (w ++ rest) := by
  cases hw with
  | plain hw => exact stops_of_segments rfl hw
  | rooted hw => exact stops_cons rfl

/-- The backslash that may stand in front of a path is taken on its own. -/
theorem gives_root (hw : Path w) : ∃ r v a, w = r ++ v ∧ Segments v ∧
    ∀ c rest, Gives (accept (.char '\\')) c r a (c ++ r) (v ++ rest) := by
  cases hw with
  | plain hw =>
    refine ⟨[], w, false, rfl, hw, fun c rest => ?_⟩
    have hnone : Gives (test true (.char '\\')) c [] false c (w ++ rest) :=
      gives_test_not true (stops_of_segments rfl hw)
    simpa [accept] using hnone
  | @rooted v hv =>
    exact ⟨ascii ['\\'], v, true, rfl, hv, fun c rest => gives_test true rfl rfl⟩

variable {p y : List UInt8}

/-- A property of what a path names, where its name ends. -/
theorem gives_staticText_property (hp : Path p) (hy : IsRun .identifier y)
    (hrest : Stops .identifier rest) :
    Gives staticText c (p ++ ascii [':', ':', '$'] ++ y) (.staticProperty (text p) (text y)) []
      rest := by
  obtain ⟨r, v, a, rfl, hv, hroot⟩ := gives_root hp
  obtain ⟨as, hsegments⟩ := gives_segments hv
  refine Gives.of_eq (Gives.bind gives_clearScratch <|
    Gives.bind (v := v ++ ([] ++ (ascii [':'] ++ (ascii [':'] ++ (ascii ['$'] ++ (y ++ []))))))
      (by simpa using hroot [] _) <|
    Gives.bind (hsegments (stops_cons rfl) (stops_cons rfl)) <| Gives.bind gives_takeScratch <|
    Gives.bind (gives_mark rfl) <| Gives.bind (gives_mark rfl) <|
    Gives.bind (gives_skip rfl) <| Gives.then <|
    Gives.bind (gives_identifier hy hrest) <|
    gives_pure (Directive.staticProperty (text (r ++ v)) (text y))) (by simp [ascii])

/-- A method of what a path names. -/
theorem gives_staticText_call (hp : Path p) (hy : IsRun .identifier y) :
    Gives staticText c (p ++ ascii [':', ':'] ++ y ++ ascii ['(', ')'])
      (.staticCall (text p) (text y)) [] rest := by
  obtain ⟨r, v, a, rfl, hv, hroot⟩ := gives_root hp
  obtain ⟨as, hsegments⟩ := gives_segments hv
  refine Gives.of_eq (Gives.bind gives_clearScratch <|
    Gives.bind (v := v ++ ([] ++ (ascii [':'] ++ (ascii [':'] ++ ([] ++
      (y ++ (ascii ['('] ++ (ascii [')'] ++ []))))))))
      (by simpa using hroot [] _) <|
    Gives.bind (hsegments (stops_cons rfl) (stops_cons rfl)) <| Gives.bind gives_takeScratch <|
    Gives.bind (gives_mark rfl) <| Gives.bind (gives_mark rfl) <|
    Gives.bind (gives_test_not false (by simpa using stops_char_of_isRun hy rfl)) <| Gives.else <|
    Gives.bind (gives_identifier hy (stops_cons rfl)) <|
    Gives.bind (gives_mark rfl) <| Gives.bind (gives_mark rfl) <|
    gives_pure (Directive.staticCall (text (r ++ v)) (text y)))
    (by simp [ascii])

/-- The text of a directive is known to be that directive, with the brace that closes a name. -/
theorem gives_directiveText {v : List UInt8} {d : Directive} (hv : DirectiveText v d)
    (htold : Told d (d.closing ++ rest)) : Gives directiveText c (v ++ d.closing) d [] rest := by
  cases hv with
  | value hx =>
    exact Gives.of_eq (Gives.bind (gives_skip rfl) <| Gives.then <| gives_boundText_value hx)
      (by simp [closing, missing])
  | call hx hy =>
    exact Gives.of_eq (Gives.bind (gives_skip rfl) <| Gives.then <| gives_boundText_call hx hy)
      (by simp [closing, missing, ascii])
  | staticCall hp hy =>
    exact Gives.of_eq (Gives.bind (u := [])
      (gives_test_not false (by simpa using stops_of_path hp)) <|
      Gives.else <| gives_staticText_call hp hy) (by simp [closing, missing, ascii])
  | staticProperty hp hy =>
    exact Gives.of_eq (Gives.bind (u := [])
      (gives_test_not false (by simpa using stops_of_path hp)) <|
      Gives.else <| gives_staticText_property hp hy htold) (by simp [closing, missing, ascii])

/-- Closing braces come next where they are missing. -/
theorem told_of_closed (d : Directive) (rest : List UInt8) :
    Told d (ascii ['\x7d', '\x7d'] ++ rest) := by
  cases d with
  | value name => exact ⟨_, rfl⟩
  | call object method => trivial
  | staticCall path method => trivial
  | staticProperty path property => exact stops_cons rfl

/-- An embedding begins with a brace, and the rest of it is read as the directive that it is. -/
theorem gives_embedding {d : Directive} (hw : Embedding w d) :
    ∃ v, w = ascii ['\x7b'] ++ v ∧ ∀ c rest, Gives embedding c v d [] rest := by
  obtain ⟨v, rfl, hv⟩ := embedding_iff.mp hw
  refine ⟨ascii ['\x7b'] ++ ((v ++ d.closing) ++ ascii (List.replicate d.missing '\x7d')), ?_,
    fun c rest => ?_⟩
  · rw [List.append_assoc v, closing_append]
    simp [ascii]
  · rw [embedding_eq]
    have htold := told_of_closed d rest
    rw [← closing_append, List.append_assoc] at htold
    exact Gives.bind (gives_demand false rfl rfl) <|
      Gives.bind (gives_directiveText hv htold) (gives_close d d.missing)

end TabMarkup.Scan
