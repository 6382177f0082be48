import TabMarkup.Proofs.Gives
import TabMarkup.Proofs.Line.WellFormed
import TabMarkup.Proofs.Line.WholeLine
import TabMarkup.Proofs.Text.Lossy

/-!
# Lines of bytes and lines of text

A tape is read beside the text that its bytes are read as. Outside of texts the lines ask for ASCII
bytes only, and these are the same in both. A text is taken as a whole: it ends before the same
ASCII byte in both, and what was taken is read as the same characters. So the same lines are read,
and where a byte is in the way of both, it is the same one or neither is ASCII
(`SameLossy.simulation`).
-/

namespace TabMarkup

/-- The tape with the text that its bytes are read as. -/
def Tape.lossy (t : Tape) : Tape :=
  { t with bytes := Utf8.lossy t.bytes }

/-- The same fault, but for a byte that is not ASCII where another such byte was found. -/
inductive Fault.SameButFound : Fault → Fault → Prop where
  | same (fault : Fault) : SameButFound fault fault
  | found (expected : Pattern) {b b' : UInt8} (hb : 0x80 ≤ b) (hb' : 0x80 ≤ b') :
      SameButFound (.unexpectedByte expected b) (.unexpectedByte expected b')

/-- The same error on the same line, but for a byte that is not ASCII where another such byte was
found. -/
def ParseError.SameButFound (e e' : ParseError) : Prop :=
  e.line = e'.line ∧ e.fault.SameButFound e'.fault

theorem ParseError.SameButFound.of_eq {e e' : ParseError} (h : e = e') : e.SameButFound e' := by
  rw [h]
  exact ⟨rfl, .same e'.fault⟩

open Grammar Scan Utf8

/-! ## Patterns -/

namespace Pattern

variable {p : Pattern} {b : UInt8} {w : List UInt8}

theorem lt_of_isAscii (hp : p.isAscii = true) (hb : p.admits b = true) : b < 0x80 := by
  cases p with
  | byte want =>
    obtain rfl := eq_of_beq hb
    exact of_decide_eq_true hp
  | content => cases hp
  | quoted quote => cases hp
  | _ =>
    revert hb
    revert b
    apply forall_byte
    decide +kernel

/-- A byte that is not ASCII is none that such a pattern admits. -/
theorem admits_of_le (hp : p.isAscii = true) (hb : 0x80 ≤ b) : p.admits b = false := by
  cases hadmits : p.admits b with
  | false => rfl
  | true => exact absurd (lt_of_isAscii hp hadmits) (UInt8.not_lt.mpr hb)

/-- What stops such a pattern is read as a text that stops it. -/
theorem stops_lossy_of_isAscii (hp : p.isAscii = true) (hw : Stops p w) : Stops p (lossy w) := by
  cases w with
  | nil => rwa [lossy_nil]
  | cons b w =>
    obtain ⟨b', w', hcons, hb'⟩ := Utf8.lossy_cons b w
    rw [hcons]
    rcases hb' with rfl | ⟨_, hb'⟩
    · exact stops_cons (hw b' rfl)
    · exact stops_cons (admits_of_le hp hb')

/-- The pattern of a text: it admits every byte that is not ASCII, but no newline. -/
structure AdmitsText (p : Pattern) : Prop where
  newline : p.admits 10 = false
  admits : ∀ b, 0x80 ≤ b → p.admits b = true

theorem admitsText_content : Pattern.content.AdmitsText where
  newline := rfl
  admits b hb := by
    refine bne_iff_ne.mpr fun heq => ?_
    subst heq
    exact absurd hb (by decide)

theorem admitsText_quoted {q : UInt8} (hq : q < 0x80) : (Pattern.quoted q).AdmitsText where
  newline := rfl
  admits b hb := by
    have hquote : b ≠ q := fun heq => absurd hq (UInt8.not_lt.mpr (heq ▸ hb))
    have hcontent : Pattern.content.admits b = true := admitsText_content.admits b hb
    exact Bool.and_eq_true_iff.mpr ⟨hcontent, bne_iff_ne.mpr hquote⟩

namespace AdmitsText

/-- What stops a text begins with an ASCII byte. -/
theorem lt_of_stops (hp : p.AdmitsText) (hw : Stops p w) : ∀ b ∈ w.head?, b < 0x80 := by
  refine fun b hb => UInt8.not_le.mp fun hle => ?_
  have hadmits := hw b hb
  rw [hp.admits b hle] at hadmits
  cases hadmits

/-- What stops a text is read as a text that stops it. -/
theorem stops_lossy (hp : p.AdmitsText) (hw : Stops p w) : Stops p (lossy w) := by
  cases w with
  | nil => rwa [lossy_nil]
  | cons b w =>
    rw [lossy_cons_ascii (hp.lt_of_stops hw b rfl)]
    exact stops_cons (hw b rfl)

/-- What begins a text is read as what begins it. -/
theorem lossy_cons (hp : p.AdmitsText) (hb : p.admits b = true) (w : List UInt8) :
    ∃ b' w', lossy (b :: w) = b' :: w' ∧ p.admits b' = true := by
  obtain ⟨b', w', hcons, hb'⟩ := Utf8.lossy_cons b w
  refine ⟨b', w', hcons, ?_⟩
  rcases hb' with rfl | ⟨_, hb'⟩
  · exact hb
  · exact hp.admits b' hb'

end AdmitsText

end Pattern

/-! ## Two cursors -/

theorem lineAfter_lossy (line : Nat) (owed : Bool) (w : List UInt8) :
    lineAfter line owed (lossy w) = lineAfter line owed w := by
  by_cases hw : w = []
  · rw [hw, lossy_nil]
  · rw [lineAfter_of_ne_nil line owed hw, lineAfter_of_ne_nil line owed (mt lossy_eq_nil.mp hw)]

theorem owedAfter_lossy (owed : Bool) (w : List UInt8) :
    owedAfter owed (lossy w) = owedAfter owed w := by
  by_cases hw : w = []
  · rw [hw, lossy_nil]
  · rw [owedAfter_of_ne_nil owed hw, owedAfter_of_ne_nil owed (mt lossy_eq_nil.mp hw)]

/-- Two cursors in the same line, the second before the text that the bytes before the first are
read as. -/
def BesideLossy (c d : Cursor) : Prop :=
  ∃ bytes, ∃ failure? : Option String, ∃ line owed,
    c.At { bytes, failure? } line owed ∧ d.At { bytes := lossy bytes, failure? } line owed

/-- Two runs of steps have kept the same ASCII bytes. -/
def KeptAlike (s t u v : Scanner) : Prop :=
  ∃ kept : List UInt8, (∀ b ∈ kept, b < 0x80) ∧ u.scratch.toList = s.scratch.toList ++ kept ∧
    v.scratch.toList = t.scratch.toList ++ kept

theorem keptAlike_of_eq {s t u v : Scanner} (hu : u.scratch = s.scratch)
    (hv : v.scratch = t.scratch) : KeptAlike s t u v :=
  ⟨[], nofun, by rw [hu, List.append_nil], by rw [hv, List.append_nil]⟩

theorem keptAlike_of_ascii {s t u v : Scanner} {keep : Bool} {b : UInt8} (hb : b < 0x80)
    (hu : u.scratch = if keep then s.scratch.push b else s.scratch)
    (hv : v.scratch = if keep then t.scratch.push b else t.scratch) : KeptAlike s t u v := by
  cases keep with
  | false => exact keptAlike_of_eq hu hv
  | true => exact ⟨[b], by simpa using hb, by simp [hu], by simp [hv]⟩

/-- One run of steps has kept some bytes, the other the text that they are read as. -/
def KeptLossy (s t u v : Scanner) : Prop :=
  ∃ kept : List UInt8, u.scratch.toList = s.scratch.toList ++ kept ∧
    v.scratch.toList = t.scratch.toList ++ lossy kept

namespace BesideLossy

variable {s t : Scanner} {p : Pattern}

/-! ## Single bytes -/

/-- A byte that is in the way of both is tried in vain by both. -/
theorem test_stopped {bytes : List UInt8} {failure? : Option String} {line : Nat} {owed : Bool}
    (keep : Bool) (hs : s.cursor.At { bytes, failure? } line owed)
    (ht : t.cursor.At { bytes := lossy bytes, failure? } line owed) (hstops : Stops p bytes)
    (hstops' : Stops p (lossy bytes)) :
    Alike ParseError.SameButFound (fun a u b v => a = b ∧ BesideLossy u.cursor v.cursor ∧
      KeptAlike s t u v ∧ (a = false → u.cursor.isEof = v.cursor.isEof))
      (Scan.test keep p s) (Scan.test keep p t) := by
  cases bytes with
  | nil =>
    rw [lossy_nil] at ht
    cases failure? with
    | none =>
      obtain ⟨x, hsx, hx, hscratchx, hxeof⟩ := test_over keep (p := p) hs
      obtain ⟨y, hty, hy, hscratchy, hyeof⟩ := test_over keep (p := p) ht
      rw [hsx, hty]
      exact .ok ⟨rfl, ⟨[], none, line, owed, hx, by rwa [lossy_nil]⟩,
        keptAlike_of_eq hscratchx hscratchy, fun _ => hxeof.trans hyeof.symm⟩
    | some message =>
      obtain ⟨x, hsx⟩ := test_failure keep (p := p) hs
      obtain ⟨y, hty⟩ := test_failure keep (p := p) ht
      rw [hsx, hty]
      exact .error (.of_eq rfl)
  | cons b w =>
    obtain ⟨b', w', hw, _⟩ := lossy_cons b w
    rw [hw] at ht hstops'
    obtain ⟨x, hsx, hx, hscratchx, hxeof⟩ := test_rejected keep hs (hstops b rfl)
    obtain ⟨y, hty, hy, hscratchy, hyeof⟩ := test_rejected keep ht (hstops' b' rfl)
    rw [hsx, hty]
    exact .ok ⟨rfl, ⟨b :: w, failure?, line, owed, hx, by rwa [hw]⟩,
      keptAlike_of_eq hscratchx hscratchy, fun _ => hxeof.trans hyeof.symm⟩

/-- A byte that is in the way of both is reported by both: it is the same one, or neither is
ASCII. -/
theorem demand_stopped {bytes : List UInt8} {failure? : Option String} {line : Nat} {owed : Bool}
    {post : Unit → Scanner → Unit → Scanner → Prop} (keep : Bool)
    (hs : s.cursor.At { bytes, failure? } line owed)
    (ht : t.cursor.At { bytes := lossy bytes, failure? } line owed) (hstops : Stops p bytes)
    (hstops' : Stops p (lossy bytes)) :
    Alike ParseError.SameButFound post (Scan.demand keep p s) (Scan.demand keep p t) := by
  cases bytes with
  | nil =>
    rw [lossy_nil] at ht
    cases failure? with
    | none =>
      obtain ⟨x, hsx⟩ := demand_over keep (p := p) hs
      obtain ⟨y, hty⟩ := demand_over keep (p := p) ht
      rw [hsx, hty]
      exact .error (.of_eq rfl)
    | some message =>
      obtain ⟨x, hsx⟩ := demand_failure keep (p := p) hs
      obtain ⟨y, hty⟩ := demand_failure keep (p := p) ht
      rw [hsx, hty]
      exact .error (.of_eq rfl)
  | cons b w =>
    obtain ⟨b', w', hw, hb'⟩ := lossy_cons b w
    rw [hw] at ht hstops'
    obtain ⟨x, hsx⟩ := demand_rejected keep hs (hstops b rfl)
    obtain ⟨y, hty⟩ := demand_rejected keep ht (hstops' b' rfl)
    rw [hsx, hty]
    rcases hb' with rfl | ⟨hb, hb'⟩
    · exact .error (.of_eq rfl)
    · exact .error ⟨rfl, .found p hb hb'⟩

/-- Trying a byte comes to the same: an ASCII byte that comes next is the same in both, and another
one is not admitted. -/
theorem test (h : BesideLossy s.cursor t.cursor) (keep : Bool) (hp : p.isAscii = true) :
    Alike ParseError.SameButFound (fun a u b v => a = b ∧ BesideLossy u.cursor v.cursor ∧
      KeptAlike s t u v ∧ (a = false → u.cursor.isEof = v.cursor.isEof))
      (Scan.test keep p s) (Scan.test keep p t) := by
  obtain ⟨bytes, failure?, line, owed, hs, ht⟩ := h
  rcases stops_or_admits p bytes with hstops | ⟨b, w, rfl, hb⟩
  · exact test_stopped keep hs ht hstops (Pattern.stops_lossy_of_isAscii hp hstops)
  · have hascii := Pattern.lt_of_isAscii hp hb
    rw [lossy_cons_ascii hascii] at ht
    obtain ⟨x, hsx, hx, hscratchx⟩ := test_admitted keep hs hb
    obtain ⟨y, hty, hy, hscratchy⟩ := test_admitted keep ht hb
    rw [hsx, hty]
    exact .ok ⟨rfl, ⟨_, _, _, _, hx, hy⟩, keptAlike_of_ascii hascii hscratchx hscratchy, nofun⟩

/-- Demanding a byte comes to the same, but for which byte that is not ASCII is in the way. -/
theorem demand (h : BesideLossy s.cursor t.cursor) (keep : Bool) (hp : p.isAscii = true) :
    Alike ParseError.SameButFound (fun _ u _ v => BesideLossy u.cursor v.cursor ∧
      KeptAlike s t u v) (Scan.demand keep p s) (Scan.demand keep p t) := by
  obtain ⟨bytes, failure?, line, owed, hs, ht⟩ := h
  rcases stops_or_admits p bytes with hstops | ⟨b, w, rfl, hb⟩
  · exact demand_stopped keep hs ht hstops (Pattern.stops_lossy_of_isAscii hp hstops)
  · have hascii := Pattern.lt_of_isAscii hp hb
    rw [lossy_cons_ascii hascii] at ht
    obtain ⟨x, hsx, hx, hscratchx⟩ := demand_admitted keep hs hb
    obtain ⟨y, hty, hy, hscratchy⟩ := demand_admitted keep ht hb
    rw [hsx, hty]
    exact .ok ⟨⟨_, _, _, _, hx, hy⟩, keptAlike_of_ascii hascii hscratchx hscratchy⟩

/-! ## Texts -/

/-- A run of a text ends in both before the same ASCII byte, the end or the failure. -/
theorem countWhile (h : BesideLossy s.cursor t.cursor) (hp : p.AdmitsText) :
    Alike ParseError.SameButFound (fun _ u _ v => BesideLossy u.cursor v.cursor ∧
      KeptLossy s t u v) (Scan.countWhile true p s) (Scan.countWhile true p t) := by
  obtain ⟨bytes, failure?, line, owed, hs, ht⟩ := h
  obtain ⟨w, rest, rfl, hw, hrest⟩ := exists_run p bytes
  have hlossy : ∀ b ∈ lossy w, p.admits b = true := fun b hb =>
    (mem_lossy hb).elim (hw b) (hp.admits b)
  rw [lossy_append w (hp.lt_of_stops hrest)] at ht
  by_cases hend : rest = [] → failure? = none
  · obtain ⟨x, hsx, hx, hscratchx⟩ := countWhile_run true hp.newline hw hrest hend hs
    obtain ⟨y, hty, hy, hscratchy⟩ := countWhile_run true hp.newline hlossy
      (hp.stops_lossy hrest) (by simpa using hend) ht
    rw [lineAfter_lossy, owedAfter_lossy] at hy
    rw [hsx, hty]
    exact .ok ⟨⟨_, _, _, _, hx, hy⟩, w, hscratchx, hscratchy⟩
  · obtain ⟨rfl, hfailure⟩ := Classical.not_imp.mp hend
    obtain ⟨message, rfl⟩ := Option.ne_none_iff_exists'.mp hfailure
    rw [lossy_nil, List.append_nil] at ht
    rw [List.append_nil] at hs
    obtain ⟨x, hsx⟩ := countWhile_failure true hp.newline hw hs
    obtain ⟨y, hty⟩ := countWhile_failure true hp.newline hlossy ht
    rw [hsx, hty, lineAfter_lossy]
    exact .error (.of_eq rfl)

/-- One byte or more of a text: where there are none, the same ASCII byte is in the way of both. -/
theorem expectRun (h : BesideLossy s.cursor t.cursor) (hp : p.AdmitsText) :
    Alike ParseError.SameButFound (fun _ u _ v => BesideLossy u.cursor v.cursor ∧
      KeptLossy s t u v) (Scan.expectRun p s) (Scan.expectRun p t) := by
  have hrun := h.countWhile hp
  obtain ⟨bytes, failure?, line, owed, hs, ht⟩ := h
  rcases stops_or_admits p bytes with hstops | ⟨b, w, rfl, hb⟩
  · have hdemand : Alike ParseError.SameButFound (fun _ _ _ _ => False) (Scan.demand true p s)
        (Scan.demand true p t) := demand_stopped true hs ht hstops (hp.stops_lossy hstops)
    exact hdemand.bind fun _ _ _ _ _ hfalse => hfalse.elim
  · obtain ⟨b', w', hw, hb'⟩ := hp.lossy_cons hb w
    rw [hw] at ht
    rw [expectRun_eq hs hb, expectRun_eq ht hb']
    exact hrun.bind fun _ _ _ _ _ hpost => .ok hpost

end BesideLossy

/-! ## Two scanners -/

/-- Two scanners in the same line that have kept the same ASCII bytes, the second before the text
that the tape of the first is read as. -/
structure SameLossy (s t : Scanner) : Prop where
  cursor : BesideLossy s.cursor t.cursor
  scratch_eq : s.scratch = t.scratch
  ascii : ∀ b ∈ s.scratch.toList, b < 0x80

namespace SameLossy

variable {s t u v : Scanner}

theorem of_keptAlike (h : SameLossy s t) (hcursor : BesideLossy u.cursor v.cursor)
    (hkept : KeptAlike s t u v) : SameLossy u v := by
  obtain ⟨kept, hascii, hu, hv⟩ := hkept
  refine ⟨hcursor, ?_, ?_⟩
  · rw [← Array.toList_inj, hu, hv, h.scratch_eq]
  · rw [hu]
    exact List.forall_mem_append.mpr ⟨h.ascii, hascii⟩

/-- Behind a text, and ASCII bytes behind it, the tokens are read as the same. -/
theorem text_eq (h : SameLossy s t) {x y : Scanner} (htext : KeptLossy s t u v)
    (hkept : KeptAlike u v x y) : text x.scratch.toList = text y.scratch.toList := by
  obtain ⟨w, hu, hv⟩ := htext
  obtain ⟨kept, hascii, hx, hy⟩ := hkept
  rw [hx, hy, hu, hv, ← h.scratch_eq, ← lossy_between h.ascii hascii, text, text,
    decodeLossy_lossy]

/-- Trying an ASCII byte leaves the tokens the same. -/
theorem alike_test (h : SameLossy s t) (keep : Bool) {p : Pattern} (hp : p.isAscii = true) :
    Alike ParseError.SameButFound (fun a u b v => a = b ∧ SameLossy u v ∧
      (a = false → u.cursor.isEof = v.cursor.isEof)) (test keep p s) (test keep p t) :=
  (h.cursor.test keep hp).mono fun _ _ _ _ hpost =>
    ⟨hpost.1, h.of_keptAlike hpost.2.1 hpost.2.2.1, hpost.2.2.2⟩

/-- Tokens that are read as the same are taken as the same text. -/
theorem takeScratch_of_text_eq (hcursor : BesideLossy s.cursor t.cursor)
    (htext : text s.scratch.toList = text t.scratch.toList) :
    Alike ParseError.SameButFound (fun a u b v => a = b ∧ SameLossy u v) (takeScratch s)
      (takeScratch t) :=
  .ok ⟨htext, hcursor, rfl, nofun⟩

/-- Reading the text that a tape is read as instead of the tape is a simulation, also where lines
end. -/
theorem simulation :
    LineSimulation (fun _ => False) SameLossy ParseError.SameButFound where
  test keep p s t hp hst := hst.alike_test keep hp
  demand keep p hp := fun s t hst => (hst.cursor.demand keep hp).mono fun _ _ _ _ hpost =>
    ⟨rfl, hst.of_keptAlike hpost.1 hpost.2⟩
  quotedRest q hq := by
    intro s t hst
    have hascii := Pattern.isAscii_of_isInline hq
    have htext : (Pattern.quoted q).AdmitsText :=
      Pattern.admitsText_quoted (of_decide_eq_true hascii)
    refine (hst.cursor.countWhile htext).bind fun _ u _ v _ huv => ?_
    refine (huv.1.demand true hascii).bind fun _ x _ y _ hxy => ?_
    exact takeScratch_of_text_eq hxy.1 (hst.text_eq huv.2 hxy.2)
  contentText := by
    intro s t hst
    refine (hst.cursor.expectRun Pattern.admitsText_content).bind fun _ u _ v _ huv => ?_
    exact takeScratch_of_text_eq huv.1 (hst.text_eq huv.2 (keptAlike_of_eq rfl rfl))
  fail fault _ := by
    rintro s t ⟨⟨_, _, _, _, hs, ht⟩, _, _⟩
    exact .error (.of_eq (by rw [hs.line_eq, ht.line_eq]))
  clearScratch := fun _ _ hst => .ok ⟨rfl, hst.cursor, rfl, nofun⟩
  takeScratch := fun _ _ hst =>
    takeScratch_of_text_eq hst.cursor (by rw [hst.scratch_eq])
  line := by
    rintro s t ⟨⟨bytes, failure?, line, owed, hs, ht⟩, hscratch, hascii⟩
    exact .ok ⟨hs.line_eq.trans ht.line_eq.symm, ⟨bytes, failure?, line, owed, hs, ht⟩, hscratch,
      hascii⟩

end SameLossy

end TabMarkup
