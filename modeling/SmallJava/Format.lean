import SmallJava.Tree.Node

/-!
# Printing a tree

The canonical text of a tree has a statement a line, indented by two spaces per level; comments are not
printed. Parentheses are where the tree has them, so that reading the text gives the same structure again.

A tree is printed chunk by chunk, each chunk with all the expressions in it. A bad node has no text: the chunk
that would show it is not written and nothing after it is, and printing stops at that node. Two kinds of tree
that no text gives rise to cannot be printed at all, and break off the whole; see `Breakdown`.

* `Expr.text`, `Expr.obstacle?`, `Expr.breakdown?` — the text of an expression, the bad node in it, and what
  breaks off printing it;
* `Stmt.chunks` — a statement as a sequence of chunks;
* `Node.format` — what printing a node comes to.
-/

namespace SmallJava

/-- What breaks off printing. -/
inductive Breakdown where
  /-- An array literal of a type with a negative number of dimensions. -/
  | negativeDimensions
  /-- A prefix operator without a text, before an operand that has one. -/
  | operatorWithoutText
deriving DecidableEq, Repr

/-- The words of a breakdown, if it has any. -/
def Breakdown.message? : Breakdown → Option String
  | .negativeDimensions => some "strings: negative Repeat count"
  | .operatorWithoutText => none

/-! ## Expressions -/

/-- A prefix operator and its operand. Two signs that would make one operator are kept apart. -/
def joinPrefix (op arg : Bytes) : Bytes :=
  match op.getLast?, arg.head? with
  | some a, some b =>
    if a = b ∧ (b = byte '-' ∨ b = byte '+') then op ++ utf8 " " ++ arg else op ++ arg
  | _, _ => op ++ arg

mutual

/-- The text of an expression. A bad expression has an empty one. -/
def Expr.text : Expr → Bytes
  | .literal l => l.text
  | .ident i => i.name
  | .array a => a.text
  | .index _ x i => x.text ++ utf8 "[" ++ i.text ++ utf8 "]"
  | .select _ x sel => x.text ++ utf8 "." ++ sel.name
  | .call _ fn args => fn.text ++ utf8 "(" ++ Bytes.join (utf8 ", ") (Expr.texts args) ++ utf8 ")"
  | .new _ type args len elems =>
    utf8 "new " ++ type.name ++
      match len, elems with
      | some x, _ => utf8 "[" ++ x.text ++ utf8 "]" ++ Bytes.copies (type.dims - 1) (utf8 "[]")
      | none, some a => Bytes.copies type.dims (utf8 "[]") ++ a.text
      | none, none => utf8 "(" ++ Bytes.join (utf8 ", ") (Expr.texts args) ++ utf8 ")"
  | .paren _ x => utf8 "(" ++ x.text ++ utf8 ")"
  | .unary _ op x .before => joinPrefix (utf8 op.operatorText) x.text
  | .unary _ op x .after => x.text ++ utf8 op.operatorText
  | .binary _ op x y => x.text ++ utf8 " " ++ utf8 op.operatorText ++ utf8 " " ++ y.text
  | .assign _ op target value =>
    target.text ++ utf8 " " ++ utf8 op.operatorText ++ utf8 " " ++ value.text
  | .bad _ => []

/-- The text of an array literal. -/
def ArrayLit.text : ArrayLit → Bytes
  | .mk _ elems => utf8 "\x7b" ++ Bytes.join (utf8 ", ") (Expr.texts elems) ++ utf8 "\x7d"

/-- The texts of several expressions. -/
def Expr.texts : List Expr → List Bytes
  | [] => []
  | x :: xs => x.text :: Expr.texts xs

end

mutual

/-- The first bad expression of those that the text of an expression would show. -/
def Expr.obstacle? : Expr → Option Expr
  | .literal _ | .ident _ => none
  | .array a => a.obstacle?
  | .index _ x i => x.obstacle?.or i.obstacle?
  | .select _ x _ => x.obstacle?
  | .call _ fn args => fn.obstacle?.or (Expr.firstObstacle? args)
  | .new _ _ args len elems =>
    match len, elems with
    | some x, _ => x.obstacle?
    | none, some a => a.obstacle?
    | none, none => Expr.firstObstacle? args
  | .paren _ x => x.obstacle?
  | .unary _ _ x _ => x.obstacle?
  | .binary _ _ x y => x.obstacle?.or y.obstacle?
  | .assign _ _ target value => target.obstacle?.or value.obstacle?
  | .bad loc => some (.bad loc)

/-- The first bad expression in an array literal. -/
def ArrayLit.obstacle? : ArrayLit → Option Expr
  | .mk _ elems => Expr.firstObstacle? elems

/-- The first bad expression in several expressions. -/
def Expr.firstObstacle? : List Expr → Option Expr
  | [] => none
  | x :: xs => x.obstacle?.or (Expr.firstObstacle? xs)

end

mutual

/-- What breaks off printing an expression. -/
def Expr.breakdown? : Expr → Option Breakdown
  | .literal _ | .ident _ | .bad _ => none
  | .array a => a.breakdown?
  | .index _ x i => x.breakdown?.or i.breakdown?
  | .select _ x _ => x.breakdown?
  | .call _ fn args => fn.breakdown?.or (Expr.firstBreakdown? args)
  | .new _ type args len elems =>
    match len, elems with
    | some x, _ => x.breakdown?
    | none, some a => if type.dims < 0 then some .negativeDimensions else a.breakdown?
    | none, none => Expr.firstBreakdown? args
  | .paren _ x => x.breakdown?
  | .unary _ op x fixity =>
    x.breakdown?.or
      (if fixity = .before ∧ op.operatorText = "" ∧ x.text ≠ [] then some .operatorWithoutText else none)
  | .binary _ _ x y => x.breakdown?.or y.breakdown?
  | .assign _ _ target value => target.breakdown?.or value.breakdown?

/-- What breaks off printing an array literal. -/
def ArrayLit.breakdown? : ArrayLit → Option Breakdown
  | .mk _ elems => Expr.firstBreakdown? elems

/-- What breaks off printing several expressions. -/
def Expr.firstBreakdown? : List Expr → Option Breakdown
  | [] => none
  | x :: xs => x.breakdown?.or (Expr.firstBreakdown? xs)

end

/-! ## Chunks -/

/-- A part of the text that is written as a whole, with the bad node that stands in its way and with what breaks
off printing it. -/
structure Chunk where
  text : Bytes
  obstacle : Option Node := none
  breakdown : Option Breakdown := none

namespace Chunk

/-- A constant text. -/
def of (s : String) : Chunk := { text := utf8 s }

/-- An expression between two texts. -/
def expr (before : Bytes) (x : Expr) (after : Bytes) : Chunk :=
  { text := before ++ x.text ++ after, obstacle := x.obstacle?.map .expr, breakdown := x.breakdown? }

/-- A node that has no text. -/
def blocked (n : Node) : Chunk := { text := [], obstacle := some n }

end Chunk

/-- Modifiers, each followed by a space. -/
def modifiersText (mods : List Token) : Bytes := mods.flatMap fun t => utf8 t.word ++ utf8 " "

/-- A declaration, and a text after it. -/
def VarDecl.chunk (d : VarDecl) (after : String) : Chunk :=
  let head := modifiersText d.modifiers ++ d.type.text ++ utf8 " " ++ d.name.name
  match d.init with
  | some x => .expr (head ++ utf8 " = ") x (utf8 after)
  | none => { text := head ++ utf8 after }

/-- A parameter. -/
def Param.text (p : Param) : Bytes := p.type.text ++ utf8 " " ++ p.name.name

/-- The head of a method, up to its body. -/
def methodHead (mods : List Token) (result : TypeName) (name : Ident) (params : List Param) : Bytes :=
  modifiersText mods ++ result.text ++ utf8 " " ++ name.name ++ utf8 "("
    ++ Bytes.join (utf8 ", ") (params.map (·.text)) ++ utf8 ") "

/-- The first clause of a counted loop. Only a declaration or an expression can be written there. -/
def initChunks : Option Stmt → List Chunk
  | none => []
  | some (.varDecl d) => [d.chunk ""]
  | some (.expr _ x) => [.expr [] x []]
  | some s => [.blocked (.stmt s)]

/-- An expression after a space. -/
def spacedChunks (x : Option Expr) : List Chunk := x.toList.map fun x => .expr (utf8 " ") x []

/-- The indentation inside braces. -/
def deeper (indent : Bytes) : Bytes := indent ++ utf8 "  "

mutual

/-- A statement without its indentation and without the line break after it. -/
def Stmt.chunks (indent : Bytes) : Stmt → List Chunk
  | .block b => b.chunks indent
  | .varDecl d => [d.chunk ";"]
  | .expr _ x => [.expr [] x (utf8 ";")]
  | .ifElse _ cond body elseIfs otherwise =>
    .expr (utf8 "if (") cond (utf8 ") ") :: body.chunks indent ++ ElseIf.allChunks indent elseIfs
      ++ match otherwise with
        | some b => .of " else " :: b.chunks indent
        | none => []
  | .whileLoop _ cond body => .expr (utf8 "while (") cond (utf8 ") ") :: body.chunks indent
  | .doWhile _ body cond =>
    .of "do " :: body.chunks indent ++ [.expr (utf8 " while (") cond (utf8 ");")]
  | .forLoop _ init cond update body =>
    .of "for (" :: initChunks init ++ .of ";" :: spacedChunks cond ++ .of ";" :: spacedChunks update
      ++ .of ") " :: body.chunks indent
  | .tryCatch _ body catches cleanup =>
    .of "try " :: body.chunks indent ++ CatchClause.allChunks indent catches
      ++ match cleanup with
        | some b => .of " finally " :: b.chunks indent
        | none => []
  | .ret _ none => [.of "return;"]
  | .ret _ (some x) => [.expr (utf8 "return ") x (utf8 ";")]
  | .empty _ => [.of ";"]
  | .classDecl _ mods name members =>
    { text := modifiersText mods ++ utf8 "class " ++ name.name ++ utf8 " \x7b\n" }
      :: Stmt.lines (deeper indent) members ++ [{ text := indent ++ utf8 "\x7d" }]
  | .methodDecl _ mods result name params body =>
    { text := methodHead mods result name params } :: body.chunks indent
  | .bad loc => [.blocked (.stmt (.bad loc))]

/-- A block. One without statements is a pair of braces. -/
def Block.chunks (indent : Bytes) : Block → List Chunk
  | .mk _ [] => [.of "\x7b\x7d"]
  | .mk _ (s :: ss) =>
    .of "\x7b\n" :: Stmt.lines (deeper indent) (s :: ss) ++ [{ text := indent ++ utf8 "\x7d" }]

/-- The arms of a conditional. -/
def ElseIf.allChunks (indent : Bytes) : List ElseIf → List Chunk
  | [] => []
  | .mk _ cond body :: rest =>
    .expr (utf8 " else if (") cond (utf8 ") ") :: body.chunks indent ++ ElseIf.allChunks indent rest

/-- The clauses of a protected block. -/
def CatchClause.allChunks (indent : Bytes) : List CatchClause → List Chunk
  | [] => []
  | .mk _ type name body :: rest =>
    { text := utf8 " catch (" ++ type.text ++ utf8 " " ++ name.name ++ utf8 ") " }
      :: body.chunks indent ++ CatchClause.allChunks indent rest

/-- Statements on lines of their own. -/
def Stmt.lines (indent : Bytes) : List Stmt → List Chunk
  | [] => []
  | s :: ss => { text := indent } :: s.chunks indent ++ .of "\n" :: Stmt.lines indent ss

end

/-! ## What printing comes to -/

/-- What printing a node comes to. -/
inductive Formatted where
  /-- The whole text. -/
  | complete (text : Bytes)
  /-- What was written before the first node that has no text. -/
  | stopped (written : Bytes) (obstacle : Node)
  /-- Nothing: printing broke off. -/
  | broken (why : Breakdown)

namespace Formatted

/-- The whole text, or nothing if there is none. -/
def textOrEmpty : Formatted → Bytes
  | .complete text => text
  | _ => []

end Formatted

/-- What is said about a node that has no text. -/
def Node.formatMessage (n : Node) : String := "cannot format " ++ n.kind.label ++ " at " ++ n.location.text

/-- Writes chunks up to the first one with an obstacle. -/
def writeChunks (cs : List Chunk) : Formatted :=
  let written := (cs.takeWhile (·.obstacle.isNone)).flatMap (·.text)
  match cs.findSome? (·.obstacle) with
  | some n => .stopped written n
  | none => .complete written

namespace Node

/-- A node as a sequence of chunks. Only programs, statements and expressions can be printed on their own. -/
def chunks : Node → List Chunk
  | .program p => Stmt.lines [] p.body
  | .stmt s => Stmt.lines [] [s]
  | .expr x => [.expr [] x []]
  | n => [.blocked n]

/-- What printing a node comes to. All of the tree is looked at, so that something that breaks off printing does so
even if it stands behind a bad node. -/
def format (n : Node) : Formatted :=
  match n.chunks.findSome? (·.breakdown) with
  | some why => .broken why
  | none => writeChunks n.chunks

end Node

end SmallJava
