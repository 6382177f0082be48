import TabMarkup.Proofs.Render.Evaluation

/-!
# Rendering one document behind another

Where no mark of a document reaches over its end into what follows, its pieces stay what they are,
and what follows has the pieces that it has by itself, further on. So both are rendered as if each
stood alone, and only a place named in an error counts from the start of the whole
(`render_append`).
-/

namespace TabMarkup

/-- The error about a document with so many bytes in front of it. -/
def RenderError.behind (bytes : Nat) : RenderError → RenderError
  | .unclosedDirective offset => .unclosedDirective (offset + bytes)
  | error => error

namespace Rendering

/-- The outcome of the same document with so many bytes in front of it. -/
def behind (bytes : Nat) (r : Rendering) : Rendering :=
  { r with result := r.result.mapError (RenderError.behind bytes) }

theorem andThen_assoc (first second third : Rendering) :
    (first.andThen second).andThen third = first.andThen (second.andThen third) := by
  obtain ⟨result, directives, calls⟩ := first
  cases result with
  | error error => rfl
  | ok text =>
    obtain ⟨result', directives', calls'⟩ := second
    cases result' with
    | error error => rfl
    | ok text' =>
      obtain ⟨result'', directives'', calls''⟩ := third
      cases result'' <;> simp [andThen, Except.map, Nat.add_assoc]

theorem behind_andThen (bytes : Nat) (first second : Rendering) :
    (first.andThen second).behind bytes = (first.behind bytes).andThen (second.behind bytes) := by
  obtain ⟨result, directives, calls⟩ := first
  cases result with
  | error error => rfl
  | ok text =>
    obtain ⟨result', directives', calls'⟩ := second
    cases result' <;> rfl

/-- Where a sequence has a text, its first part has one. -/
theorem exists_of_andThen {first second : Rendering} {text : List Char}
    (h : (first.andThen second).result = .ok text) :
    ∃ text₁ text₂, first.result = .ok text₁ ∧ second.result = .ok text₂ := by
  unfold andThen at h
  split at h
  · rename_i error herror
    rw [herror] at h
    cases h
  · rename_i text₁ hfirst
    cases hsecond : second.result with
    | error error =>
      rw [hsecond] at h
      cases h
    | ok text₂ => exact ⟨text₁, text₂, hfirst, rfl⟩

end Rendering

namespace Text

/-- The first mark of a text stays the first one, whatever follows. -/
theorem cut?_append_right {mark text before after : List Char}
    (h : cut? mark text = some (before, after)) (rest : List Char) :
    cut? mark (text ++ rest) = some (before, after ++ rest) := by
  induction text generalizing before with
  | nil =>
    simp only [cut?] at h
    split at h
    · rename_i hmark
      obtain rfl := List.isEmpty_iff.mp hmark
      cases h
      cases rest <;> simp [cut?]
    · cases h
  | cons c text ih =>
    rw [List.cons_append]
    simp only [cut?] at h ⊢
    split at h
    · rename_i hmark
      cases h
      have hstart : mark <+: c :: text := List.isPrefixOf_iff_prefix.mp hmark
      have hstill : mark.isPrefixOf (c :: (text ++ rest)) = true :=
        List.isPrefixOf_iff_prefix.mpr (hstart.trans (List.prefix_append (c :: text) rest))
      rw [if_pos hstill, ← List.cons_append, List.drop_append_of_le_length hstart.length_le]
    · rename_i hmark
      obtain ⟨⟨before', after'⟩, hcut, heq⟩ := Option.map_eq_some_iff.mp h
      cases heq
      have hlength := cut?_length hcut
      -- The mark lies in the text, so what follows cannot complete one that begins earlier.
      have hstill : ¬ mark.isPrefixOf (c :: (text ++ rest)) = true := by
        intro hstart
        apply hmark
        have hle : mark.length ≤ (c :: text).length := by
          simp only [List.length_cons]
          omega
        exact List.isPrefixOf_iff_prefix.mpr (List.prefix_of_prefix_length_le
          (List.isPrefixOf_iff_prefix.mp hstart) (List.prefix_append (c :: text) rest) hle)
      rw [if_neg hstill, ih hcut]
      rfl

end Text

namespace Template

open Text

/-- No mark begins in `u` and ends in `v`. A `<` at the end would be completed to a mark by a
percent sign, and `<%` at the end by a percent sign or an equals sign. -/
structure Seam (u v : List Char) : Prop where
  opening : ['<'] <:+ u → v.head? ≠ some '%'
  mark : ['<', '%'] <:+ u → v.head? ≠ some '%' ∧ v.head? ≠ some '='

/-- What follows comes together with the end of a text only. -/
theorem Seam.of_suffix {u v w : List Char} (h : Seam u v) (hw : w <:+ u) : Seam w v where
  opening := fun hend => h.opening (hend.trans hw)
  mark := fun hend => h.mark (hend.trans hw)

/-- An escape or a directive that begins in the first document has its whole mark there. -/
theorem Seam.exists_mark {text v rest : List Char} {third : Char} (h : Seam ('<' :: text) v)
    (hthird : third = '%' ∨ third = '=') (heq : text ++ v = '%' :: third :: rest) :
    ∃ rest', text = '%' :: third :: rest' := by
  cases text with
  | nil =>
    rw [List.nil_append] at heq
    exact absurd (congrArg List.head? heq) (h.opening (List.suffix_refl _))
  | cons c text =>
    obtain ⟨rfl, hbehind⟩ := List.cons.inj heq
    cases text with
    | nil =>
      have hv : v = third :: rest := hbehind
      obtain ⟨hpercent, hequals⟩ := h.mark (List.suffix_refl _)
      rcases hthird with rfl | rfl
      · exact absurd (congrArg List.head? hv) hpercent
      · exact absurd (congrArg List.head? hv) hequals
    | cons d text =>
      obtain ⟨rfl, _⟩ := List.cons.inj hbehind
      exact ⟨text, rfl⟩

/-! ## Pieces -/

/-- A piece that stands so many bytes further on. -/
def Piece.behind (bytes : Nat) : Piece → Piece
  | .unclosed offset => .unclosed (offset + bytes)
  | piece => piece

theorem piecesFrom_of_cut_none {text : List Char} (h : cut? ['%', '>'] text = none) (offset : Nat) :
    piecesFrom offset ('<' :: '%' :: '=' :: text) = [.unclosed offset] := by
  rw [piecesFrom]
  split <;> simp_all

/-- Where a document begins makes a difference to unclosed directives only. -/
theorem piecesFrom_add (bytes offset : Nat) (text : List Char) :
    piecesFrom (offset + bytes) text = (piecesFrom offset text).map (Piece.behind bytes) := by
  fun_induction piecesFrom offset text with
  | case1 offset => simp [piecesFrom]
  | case2 offset text ih =>
    rw [piecesFrom, List.map_cons, ← ih, Nat.add_right_comm]
    rfl
  | case3 offset text hcut =>
    rw [piecesFrom_of_cut_none hcut]
    rfl
  | case4 offset text body after hcut hlength ih =>
    have hoffset : offset + bytes + 3 + byteSize body + 2 =
        offset + 3 + byteSize body + 2 + bytes := by
      omega
    rw [piecesFrom_of_cut hcut, List.map_cons, ← ih, hoffset]
    rfl
  | case5 offset c text hescape hdirective ih =>
    rw [piecesFrom_literal hescape hdirective, List.map_cons, ← ih, Nat.add_right_comm]
    rfl

theorem byteSize_append (u v : List Char) : byteSize (u ++ v) = byteSize u + byteSize v := by
  induction u with
  | nil => simp [byteSize]
  | cons c u ih => simp [byteSize, ih, Nat.add_assoc]

/-- The pieces of a document whose directives are all closed, and then those of what follows. -/
theorem piecesFrom_append {u v : List Char} (h : Seam u v) (offset : Nat)
    (hclosed : ∀ n, .unclosed n ∉ piecesFrom offset u) :
    piecesFrom offset (u ++ v) =
      piecesFrom offset u ++ piecesFrom (offset + byteSize u) v := by
  fun_induction piecesFrom offset u with
  | case1 offset => rfl
  | case2 offset text ih =>
    have hrest := ih (h.of_suffix (List.suffix_append ['<', '%', '%'] text))
      fun n hn => hclosed n (List.mem_cons_of_mem _ hn)
    have hsize : byteSize ('<' :: '%' :: '%' :: text) = 3 + byteSize text :=
      byteSize_append ['<', '%', '%'] text
    simp only [List.cons_append]
    rw [piecesFrom, hrest, hsize, Nat.add_assoc]
  | case3 offset text hcut => exact absurd List.mem_cons_self (hclosed offset)
  | case4 offset text body after hcut hlength ih =>
    have htext := cut?_eq_some hcut
    have hrest := ih (h.of_suffix ⟨'<' :: '%' :: '=' :: (body ++ ['%', '>']), by simp [htext]⟩)
      fun n hn => hclosed n (List.mem_cons_of_mem _ hn)
    have hsize : byteSize ('<' :: '%' :: '=' :: text) = 3 + byteSize body + 2 + byteSize after := by
      have hwhole : '<' :: '%' :: '=' :: text =
          ['<', '%', '='] ++ (body ++ ['%', '>']) ++ after := by
        simp [htext]
      rw [hwhole, byteSize_append, byteSize_append, byteSize_append, ← Nat.add_assoc]
      rfl
    simp only [List.cons_append]
    rw [piecesFrom_of_cut (cut?_append_right hcut v), hrest, hsize]
    simp only [Nat.add_assoc]
  | case5 offset c text hescape hdirective ih =>
    have hrest := ih (h.of_suffix (List.suffix_cons c text))
      fun n hn => hclosed n (List.mem_cons_of_mem _ hn)
    have hescape' : ∀ rest, c = '<' → text ++ v = '%' :: '%' :: rest → False := by
      rintro rest rfl heq
      obtain ⟨rest', htext⟩ := h.exists_mark (Or.inl rfl) heq
      exact hescape rest' rfl htext
    have hdirective' : ∀ rest, c = '<' → text ++ v = '%' :: '=' :: rest → False := by
      rintro rest rfl heq
      obtain ⟨rest', htext⟩ := h.exists_mark (Or.inr rfl) heq
      exact hdirective rest' rfl htext
    simp only [List.cons_append]
    rw [piecesFrom_literal hescape' hdirective', hrest, byteSize, Nat.add_assoc]

/-! ## Outcomes -/

variable {bindings : Bindings} {statics : Statics}

theorem renderPieces_append (first second : List Piece) :
    renderPieces bindings statics (first ++ second) =
      (renderPieces bindings statics first).andThen (renderPieces bindings statics second) := by
  induction first with
  | nil => exact ((Rendering.andThen_ok [] _).trans (Rendering.prepend_nil _)).symm
  | cons piece first ih =>
    rw [List.cons_append, renderPieces, renderPieces, ih, Rendering.andThen_assoc]

/-- The value of a directive, or what it lacks, does not depend on where it stands. -/
theorem behind_evaluate (bytes : Nat) (d : Directive) :
    (d.evaluate bindings statics).behind bytes = d.evaluate bindings statics := by
  cases hlookup : d.lookup? bindings statics with
  | some text =>
    rw [Directive.evaluate_of_some hlookup]
    rfl
  | none =>
    obtain ⟨error, herror, heval⟩ := Directive.evaluate_of_none hlookup
    rw [heval]
    cases error with
    | unclosedDirective offset => cases herror
    | _ => rfl

theorem render_behind (bytes : Nat) (piece : Piece) :
    (piece.behind bytes).render bindings statics =
      (piece.render bindings statics).behind bytes := by
  cases piece with
  | literal text => rfl
  | unclosed offset => rfl
  | directive body =>
    unfold Piece.behind Piece.render
    dsimp only
    split
    · rename_i d _
      have hsame : (d.evaluate bindings statics).behind bytes = d.evaluate bindings statics :=
        behind_evaluate bytes d
      exact congrArg (fun r : Rendering => { r with directives := 1 }) hsame.symm
    · rfl

theorem renderPieces_behind (bytes : Nat) (pieces : List Piece) :
    renderPieces bindings statics (pieces.map (Piece.behind bytes)) =
      (renderPieces bindings statics pieces).behind bytes := by
  induction pieces with
  | nil => rfl
  | cons piece pieces ih =>
    rw [List.map_cons, renderPieces, renderPieces, render_behind, ih, Rendering.behind_andThen]

/-- In a document that is rendered every directive is closed. -/
theorem unclosed_notMem {pieces : List Piece} {text : List Char}
    (h : (renderPieces bindings statics pieces).result = .ok text) (n : Nat) :
    .unclosed n ∉ pieces := by
  induction pieces generalizing text with
  | nil => simp
  | cons piece pieces ih =>
    obtain ⟨text₁, text₂, hpiece, hrest⟩ := Rendering.exists_of_andThen h
    intro hmem
    rcases List.mem_cons.mp hmem with rfl | hmem
    · cases hpiece
    · exact ih hrest hmem

/-- The number of bytes of a document. -/
theorem byteSize_toList (s : String) : byteSize s.toList = s.utf8ByteSize := by
  have hlist : ∀ text, byteSize text = (String.ofList text).utf8ByteSize := by
    intro text
    induction text with
    | nil => rfl
    | cons c text ih =>
      rw [byteSize, ih, String.ofList_cons, String.utf8ByteSize_append,
        String.utf8ByteSize_singleton]
  rw [hlist, String.ofList_toList]

end Template

open Template

variable {bindings : Bindings} {statics : Statics} {u v text : String}

/-- Two documents without a mark across their seam are rendered one after the other. Where the
second one is at fault, the error is its own, with the bytes of the first counted in. -/
theorem render_append (hu : (render u bindings statics).text = .ok text)
    (hseam : Seam u.toList v.toList) :
    (render (u ++ v) bindings statics).text =
        (match (render v bindings statics).text with
        | .ok text' => .ok (text ++ text')
        | .error error => .error (error.behind u.utf8ByteSize)) ∧
      (render (u ++ v) bindings statics).calls =
        (render u bindings statics).calls ++ (render v bindings statics).calls := by
  obtain ⟨shown, hshown, rfl⟩ : ∃ shown, (render u bindings statics).result = .ok shown ∧
      String.ofList shown = text := by
    unfold Rendering.text at hu
    cases hresult : (render u bindings statics).result with
    | error error =>
      rw [hresult] at hu
      cases hu
    | ok shown =>
      rw [hresult] at hu
      cases hu
      exact ⟨shown, rfl, rfl⟩
  have hwhole : render (u ++ v) bindings statics =
      (render u bindings statics).andThen
        ((render v bindings statics).behind u.utf8ByteSize) := by
    have hpieces := piecesFrom_append hseam 0 fun n => unclosed_notMem hshown n
    unfold render pieces
    rw [String.toList_append, hpieces, renderPieces_append, byteSize_toList, piecesFrom_add,
      renderPieces_behind]
  rw [hwhole]
  unfold Rendering.andThen Rendering.behind Rendering.text
  rw [hshown]
  dsimp only
  refine ⟨?_, rfl⟩
  cases (render v bindings statics).result with
  | error error => rfl
  | ok text' => simp [Except.map, Except.mapError]

/-- The first document ends in `<%`, and the second begins with `>` and ends in a directive that is
not closed, whose mark is at byte 20 of the second document and at byte 38 of both. -/
theorem render_append_to_open_end :
    let bindings := ({} : Bindings).insert "o" (.object ⟨fun _ => some "!"⟩)
    let u := "é<%= $o->m() %><%"
    let v := ">é$o<%= $o->m() %> <%="
    (render u bindings {}).text = .ok "é!<%" ∧ Seam u.toList v.toList ∧
      (render (u ++ v) bindings {}).text = .error (.unclosedDirective 38) ∧
      (render (u ++ v) bindings {}).calls = [.method "o" "m", .method "o" "m"] := by
  intro bindings u v
  have hu : (render u bindings {}).text = .ok "é!<%" := by decide +kernel
  have hseam : Seam u.toList v.toList := ⟨by decide +kernel, by decide +kernel⟩
  have hv : (render v bindings {}).text = .error (.unclosedDirective 20) := by decide +kernel
  have hcalls : (render u bindings {}).calls = [.method "o" "m"] ∧
      (render v bindings {}).calls = [.method "o" "m"] := by decide +kernel
  have hsize : u.utf8ByteSize = 18 := by decide +kernel
  obtain ⟨htext, hcalled⟩ := render_append hu hseam
  rw [hv, hsize] at htext
  rw [hcalls.1, hcalls.2] at hcalled
  exact ⟨hu, hseam, htext, hcalled⟩

end TabMarkup
