import TabMarkup.Proofs.Takes

/-!
# What readers answer to given bytes

The other direction: before given bytes a reader succeeds with a given answer. A run only ends
before a byte that does not belong to it, so what follows the bytes is a part of the statement.
-/

namespace TabMarkup.Scan

open Grammar

/-- Before the bytes `w` and then `rest`, with the token `c`, the steps succeed with `a`. They
take `w` and leave the token `c'`. -/
def Gives {α : Type} (m : Scan α) (c w : List UInt8) (a : α) (c' rest : List UInt8) : Prop :=
  ∀ ⦃s : Scanner⦄ ⦃line : Nat⦄ ⦃owed : Bool⦄,
    s.cursor.At { bytes := w ++ rest } line owed → s.scratch.toList = c →
    ∃ s' : Scanner, m s = .ok a s' ∧
      s'.cursor.At { bytes := rest } (lineAfter line owed w) (owedAfter owed w) ∧
      s'.scratch.toList = c'

/-- What comes next does not begin with a byte that the pattern admits. -/
def Stops (p : Pattern) (rest : List UInt8) : Prop :=
  ∀ b ∈ rest.head?, p.admits b = false

theorem stops_nil (p : Pattern) : Stops p [] := by
  intro b hb
  cases hb

theorem stops_cons {p : Pattern} {b : UInt8} {rest : List UInt8} (hb : p.admits b = false) :
    Stops p (b :: rest) := by
  intro b' hb'
  cases hb'
  exact hb

/-- What comes next begins with a byte that the pattern admits, or it does not. -/
theorem stops_or_admits (p : Pattern) (bytes : List UInt8) :
    Stops p bytes ∨ ∃ b w, bytes = b :: w ∧ p.admits b = true := by
  cases bytes with
  | nil => exact Or.inl (stops_nil p)
  | cons b w =>
    cases hb : p.admits b with
    | false => exact Or.inl (stops_cons hb)
    | true => exact Or.inr ⟨b, w, rfl, hb⟩

/-- What comes next is still so where less of it is looked at. -/
theorem Stops.of_prefix {p : Pattern} {v rest : List UInt8} (h : Stops p rest) (hv : v <+: rest) :
    Stops p v := by
  obtain ⟨u, rfl⟩ := hv
  cases v with
  | nil => exact stops_nil p
  | cons b v => exact stops_cons (h b rfl)

/-- A run of other bytes comes next. -/
theorem stops_of_isRun {p q : Pattern} {w rest : List UInt8} (hw : IsRun q w)
    (hpq : ∀ b, q.admits b = true → p.admits b = false) : Stops p (w ++ rest) := by
  obtain ⟨b, w, rfl⟩ := List.exists_cons_of_ne_nil hw.1
  exact stops_cons (hpq b (hw.2 b (by simp)))

/-- A character that does not belong to a run does not begin it. -/
theorem stops_char_of_isRun {ch : Char} {q : Pattern} {w rest : List UInt8} (hw : IsRun q w)
    (hch : q.admits ch.toUInt8 = false) : Stops (.char ch) (w ++ rest) := by
  refine stops_of_isRun hw fun b hb => beq_false_of_ne fun heq => ?_
  rw [heq, hch] at hb
  cases hb

variable {α β : Type} {c c' d u v w rest : List UInt8} {p : Pattern}

/-- The bytes may be written in another way. -/
theorem Gives.of_eq {m : Scan α} {a : α} (hm : Gives m c u a c' rest) (hw : u = w) :
    Gives m c w a c' rest :=
  hw ▸ hm

/-- The steps may be written in another way. -/
theorem Gives.of_run_eq {m m' : Scan α} {a : α} (h : ∀ s, m s = m' s)
    (hm : Gives m' c w a c' rest) : Gives m c w a c' rest := by
  intro s line owed hs hc
  rw [h]
  exact hm hs hc

/-- Two parts one after the other answer to their bytes one after the other. -/
theorem Gives.bind {m : Scan α} {f : α → Scan β} {a : α} {b : β}
    (hm : Gives m c u a d (v ++ rest)) (hf : Gives (f a) d v b c' rest) :
    Gives (m >>= f) c (u ++ v) b c' rest := by
  intro s line owed hs hc
  rw [List.append_assoc] at hs
  obtain ⟨t, hma, ht, hd⟩ := hm hs hc
  obtain ⟨s', hfa, hs', hc'⟩ := hf ht hd
  refine ⟨s', by rw [bind_of_ok hma, hfa], ?_, hc'⟩
  rwa [lineAfter_append, owedAfter_append] at hs'

/-- A first branch that is taken. -/
theorem Gives.then {m m' : Scan α} {a : α} (hm : Gives m c w a c' rest) :
    Gives (if true = true then m else m') c w a c' rest :=
  hm

/-- A second branch that is taken. -/
theorem Gives.else {m m' : Scan α} {a : α} (hm' : Gives m' c w a c' rest) :
    Gives (if false = true then m else m') c w a c' rest :=
  hm'

theorem gives_pure (a : α) : Gives (pure a : Scan α) c [] a c rest := by
  intro s line owed hs hc
  exact ⟨s, rfl, by simpa using hs, hc⟩

theorem gives_clearScratch : Gives clearScratch c [] () [] rest := by
  intro s line owed hs hc
  exact ⟨_, rfl, by simpa using hs, rfl⟩

theorem gives_takeScratch : Gives takeScratch c [] (text c) [] rest := by
  intro s line owed hs hc
  exact ⟨_, by rw [takeScratch, hc]; rfl, by simpa using hs, rfl⟩

/-! ## Single bytes -/

/-- A byte that is tried and admitted. -/
theorem gives_test (keep : Bool) (hp : p.admits 10 = false) {b : UInt8} (hb : p.admits b = true) :
    Gives (test keep p) c [b] true (if keep then c ++ [b] else c) rest := by
  intro s line owed hs hc
  obtain ⟨t, htest, ht, hscratch⟩ := test_admitted keep hs hb
  refine ⟨t, htest, at_sameLine hp hb ht, ?_⟩
  rw [hscratch, ← hc]
  cases keep <;> simp

/-- A byte that is tried in vain. -/
theorem gives_test_not (keep : Bool) (hrest : Stops p rest) :
    Gives (test keep p) c [] false c rest := by
  intro s line owed hs hc
  cases rest with
  | nil =>
    obtain ⟨t, htest, ht, hscratch, _⟩ := test_over keep (p := p) hs
    exact ⟨t, htest, by simpa using ht, by rw [hscratch, hc]⟩
  | cons b rest =>
    obtain ⟨t, htest, ht, hscratch, _⟩ := test_rejected keep hs (hrest b rfl)
    exact ⟨t, htest, by simpa using ht, by rw [hscratch, hc]⟩

theorem gives_demand (keep : Bool) (hp : p.admits 10 = false) {b : UInt8}
    (hb : p.admits b = true) :
    Gives (demand keep p) c [b] () (if keep then c ++ [b] else c) rest := by
  intro s line owed hs hc
  obtain ⟨t, htest, ht, hscratch⟩ := demand_admitted keep hs hb
  refine ⟨t, htest, at_sameLine hp hb ht, ?_⟩
  rw [hscratch, ← hc]
  cases keep <;> simp

/-- A character that is skipped. -/
theorem gives_skip {ch : Char} (hch : (Pattern.char ch).admits 10 = false) :
    Gives (skip (.char ch)) c (ascii [ch]) true c rest :=
  gives_test false hch (beq_self_eq_true _)

/-! ## Runs and lists -/

/-- Any bytes are a run and then bytes that stop it. -/
theorem exists_run (p : Pattern) (w : List UInt8) :
    ∃ u rest, w = u ++ rest ∧ (∀ b ∈ u, p.admits b = true) ∧ Stops p rest := by
  refine ⟨w.takeWhile p.admits, w.dropWhile p.admits, List.takeWhile_append_dropWhile.symm,
    List.all_eq_true.mp List.all_takeWhile, fun b hb => ?_⟩
  have hnot := List.head?_dropWhile_not p.admits w
  rw [Option.mem_def.mp hb] at hnot
  simpa using hnot

/-- A run goes on to the first byte that does not belong to it, or to the end. -/
theorem countWhile_run (keep : Bool) (hp : p.admits 10 = false)
    (hw : ∀ b ∈ w, p.admits b = true) (hrest : Stops p rest) {s : Scanner}
    {failure? : Option String} {line : Nat} {owed : Bool} (hend : rest = [] → failure? = none)
    (hs : s.cursor.At { bytes := w ++ rest, failure? } line owed) :
    ∃ t : Scanner, countWhile keep p s = .ok w.length t ∧
      t.cursor.At { bytes := rest, failure? } (lineAfter line owed w) (owedAfter owed w) ∧
      t.scratch.toList = if keep then s.scratch.toList ++ w else s.scratch.toList := by
  induction w generalizing s line owed with
  | nil =>
    obtain ⟨t, htest, ht, hscratch⟩ : ∃ t : Scanner, test keep p s = .ok false t ∧
        t.cursor.At { bytes := rest, failure? } line owed ∧ t.scratch = s.scratch := by
      cases rest with
      | nil =>
        obtain rfl := hend rfl
        obtain ⟨t, htest, ht, hscratch, _⟩ := test_over keep (p := p) hs
        exact ⟨t, htest, ht, hscratch⟩
      | cons b rest =>
        obtain ⟨t, htest, ht, hscratch, _⟩ := test_rejected keep hs (hrest b rfl)
        exact ⟨t, htest, ht, hscratch⟩
    exact ⟨t, by rw [countWhile_eq, bind_of_ok htest]; rfl, by simpa using ht, by simp [hscratch]⟩
  | cons b w ih =>
    have hb : p.admits b = true := hw b List.mem_cons_self
    obtain ⟨x, htest, hx, hscratchx⟩ := test_admitted keep hs hb
    obtain ⟨t, hrun, ht, hscratch⟩ :=
      ih (fun b' hb' => hw b' (List.mem_cons_of_mem b hb')) (at_sameLine hp hb hx)
    refine ⟨t, ?_, ?_, ?_⟩
    · rw [countWhile_eq, bind_of_ok htest, if_pos rfl, bind_of_ok hrun]
      rfl
    · rwa [lineAfter_append, owedAfter_append] at ht
    · rw [hscratch, hscratchx]
      cases keep <;> simp

/-- A run that comes to a failure passes it on, with the line of the last byte. -/
theorem countWhile_failure (keep : Bool) (hp : p.admits 10 = false)
    (hw : ∀ b ∈ w, p.admits b = true) {s : Scanner} {message : String} {line : Nat} {owed : Bool}
    (hs : s.cursor.At { bytes := w, failure? := some message } line owed) :
    ∃ t, countWhile keep p s = .error ⟨.unreadable message, lineAfter line owed w⟩ t := by
  induction w generalizing s line owed with
  | nil =>
    obtain ⟨t, htest⟩ := test_failure keep (p := p) hs
    exact ⟨t, by rw [countWhile_eq, bind_of_error htest, lineAfter_nil]⟩
  | cons b w ih =>
    have hb : p.admits b = true := hw b List.mem_cons_self
    obtain ⟨x, htest, hx, _⟩ := test_admitted keep hs hb
    obtain ⟨t, hrun⟩ :=
      ih (fun b' hb' => hw b' (List.mem_cons_of_mem b hb')) (at_sameLine hp hb hx)
    rw [lineAfter_append] at hrun
    exact ⟨t, by rw [countWhile_eq, bind_of_ok htest, if_pos rfl, bind_of_error hrun]; rfl⟩

/-- Before the end or another byte a run goes up to there. -/
theorem gives_countWhile (keep : Bool) (hp : p.admits 10 = false)
    (hw : ∀ b ∈ w, p.admits b = true) (hrest : Stops p rest) :
    Gives (countWhile keep p) c w w.length (if keep then c ++ w else c) rest := by
  intro s line owed hs hc
  obtain ⟨t, hrun, ht, hscratch⟩ := countWhile_run keep hp hw hrest (fun _ => rfl) hs
  exact ⟨t, hrun, ht, by rw [hscratch, hc]⟩

/-- A run of one byte or more. -/
theorem gives_expectRun (hp : p.admits 10 = false) (hw : IsRun p w) (hrest : Stops p rest) :
    Gives (expectRun p) c w () (c ++ w) rest := by
  obtain ⟨b, w, rfl⟩ := List.exists_cons_of_ne_nil hw.1
  have hb := hw.2 b (by simp)
  have hmore : ∀ b' ∈ w, p.admits b' = true := fun b' hb' => hw.2 b' (by simp [hb'])
  have hrun : Gives (expectRun p) c (b :: w) () (c ++ [b] ++ w) rest :=
    Gives.of_eq (Gives.bind (gives_demand true hp hb)
      (Gives.bind (v := []) (gives_countWhile true hp hmore hrest) (gives_pure ()))) (by simp)
  simpa using hrun

variable {keep : Bool} {mark : Pattern} {item : Scan α} {hitem : Forward item}

/-- The list ends after an item that no mark follows. -/
theorem gives_separatedBy_single {a : α} (ha : Gives item c w a d rest)
    (hrest : Stops mark rest) : Gives (separatedBy keep mark item hitem) c w [a] d rest :=
  Gives.of_run_eq (separatedBy_eq keep mark item hitem) <|
    Gives.of_eq (Gives.bind (v := []) ha
      (Gives.bind (v := []) (gives_test_not keep hrest) (Gives.else (gives_pure [a])))) (by simp)

/-- The list goes on after a mark. -/
theorem gives_separatedBy_cons {a : α} {as : List α} {b : UInt8} (hmark : mark.admits 10 = false)
    (hb : mark.admits b = true) (ha : Gives item c w a d (b :: v ++ rest))
    (has : Gives (separatedBy keep mark item hitem) (if keep then d ++ [b] else d) v as c' rest) :
    Gives (separatedBy keep mark item hitem) c (w ++ b :: v) (a :: as) c' rest :=
  Gives.of_run_eq (separatedBy_eq keep mark item hitem) <|
    Gives.of_eq (Gives.bind (v := [b] ++ (v ++ [])) (by simpa using ha)
      (Gives.bind (gives_test keep hmark hb) (Gives.then (Gives.bind has (gives_pure (a :: as))))))
      (by simp)

end TabMarkup.Scan
