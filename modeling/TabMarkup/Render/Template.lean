import TabMarkup.Text.Cut

/-!
# Templates

A composed document as its renderer sees it: text to copy and directives to evaluate. Only `<%=`
opens a directive; `<%%` stands for `<%`, and any other `<%` stands for itself.
-/

namespace TabMarkup.Template

/-- A piece of a composed document. -/
inductive Piece where
  | literal (text : List Char)
  /-- What stands between the marks of a directive. -/
  | directive (body : List Char)
  /-- The mark at this byte is followed by no closing mark. -/
  | unclosed (offset : Nat)
  deriving Repr, DecidableEq

/-- The number of bytes of a text. -/
def byteSize : List Char → Nat
  | [] => 0
  | c :: text => c.utf8Size + byteSize text

/-- The pieces of a text that begins at byte `offset` of a document. -/
def piecesFrom (offset : Nat) : List Char → List Piece
  | [] => []
  | '<' :: '%' :: '%' :: text => .literal ['<', '%'] :: piecesFrom (offset + 3) text
  | '<' :: '%' :: '=' :: text =>
    match h : Text.cut? ['%', '>'] text with
    | none => [.unclosed offset]
    | some (body, after) =>
      have := Text.cut?_length h
      .directive body :: piecesFrom (offset + 3 + byteSize body + 2) after
  | c :: text => .literal [c] :: piecesFrom (offset + c.utf8Size) text
termination_by text => text.length
decreasing_by
  · simp only [List.length_cons]; omega
  · simp only [List.length_cons, List.length_nil] at this ⊢; omega
  · simp only [List.length_cons]; omega

/-- The pieces of a document. -/
def pieces (document : List Char) : List Piece :=
  piecesFrom 0 document

end TabMarkup.Template
