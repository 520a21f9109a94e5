import SmallJava.Tree.Basic

/-!
# Nodes and their children

`Node` is any node of a tree, and `Node.children` lists the nodes directly below one, each with the name of
the field that holds it and its place if that field is a list. Absent optional children are left out, and
comments are nobody's children. Everything that goes through trees, walks and cursors alike, goes through
this list.
-/

namespace SmallJava

/-- The kinds of node. -/
inductive NodeKind where
  | comment | program | block | varDecl | exprStmt | ifStmt | elseIf | whileStmt | doWhileStmt | forStmt
  | tryStmt | catchClause | returnStmt | emptyStmt | classDecl | methodDecl | param | typeName | badStmt
  | literal | ident | arrayLit | indexExpr | selectorExpr | callExpr | newExpr | parenExpr | unaryExpr
  | binaryExpr | assignExpr | badExpr
deriving DecidableEq, Repr, Inhabited

namespace NodeKind

/-- The name of a kind. -/
def name : NodeKind → String
  | .comment => "Comment"
  | .program => "Program"
  | .block => "Block"
  | .varDecl => "VarDecl"
  | .exprStmt => "ExprStmt"
  | .ifStmt => "IfStmt"
  | .elseIf => "ElseIf"
  | .whileStmt => "WhileStmt"
  | .doWhileStmt => "DoWhileStmt"
  | .forStmt => "ForStmt"
  | .tryStmt => "TryStmt"
  | .catchClause => "CatchClause"
  | .returnStmt => "ReturnStmt"
  | .emptyStmt => "EmptyStmt"
  | .classDecl => "ClassDecl"
  | .methodDecl => "MethodDecl"
  | .param => "Param"
  | .typeName => "TypeName"
  | .badStmt => "BadStmt"
  | .literal => "Literal"
  | .ident => "Ident"
  | .arrayLit => "ArrayLit"
  | .indexExpr => "IndexExpr"
  | .selectorExpr => "SelectorExpr"
  | .callExpr => "CallExpr"
  | .newExpr => "NewExpr"
  | .parenExpr => "ParenExpr"
  | .unaryExpr => "UnaryExpr"
  | .binaryExpr => "BinaryExpr"
  | .assignExpr => "AssignExpr"
  | .badExpr => "BadExpr"

/-- What a message calls a node of this kind. -/
def label (k : NodeKind) : String := "*ast." ++ k.name

end NodeKind

/-- A node of a tree. -/
inductive Node where
  | program (p : Program)
  | stmt (s : Stmt)
  | expr (x : Expr)
  | elseIf (arm : ElseIf)
  | catchClause (c : CatchClause)
  | param (p : Param)
  | typeName (t : TypeName)
  | comment (c : Comment)

instance : Inhabited Node := ⟨.expr default⟩

/-- The kind of an expression. -/
def Expr.kind : Expr → NodeKind
  | .literal _ => .literal
  | .ident _ => .ident
  | .array _ => .arrayLit
  | .index .. => .indexExpr
  | .select .. => .selectorExpr
  | .call .. => .callExpr
  | .new .. => .newExpr
  | .paren .. => .parenExpr
  | .unary .. => .unaryExpr
  | .binary .. => .binaryExpr
  | .assign .. => .assignExpr
  | .bad _ => .badExpr

/-- The kind of a statement. -/
def Stmt.kind : Stmt → NodeKind
  | .block _ => .block
  | .varDecl _ => .varDecl
  | .expr .. => .exprStmt
  | .ifElse .. => .ifStmt
  | .whileLoop .. => .whileStmt
  | .doWhile .. => .doWhileStmt
  | .forLoop .. => .forStmt
  | .tryCatch .. => .tryStmt
  | .ret .. => .returnStmt
  | .empty _ => .emptyStmt
  | .classDecl .. => .classDecl
  | .methodDecl .. => .methodDecl
  | .bad _ => .badStmt

/-- A node below another one: the field that holds it, and its place in that field if it is a list. -/
structure Child where
  field : String
  index : Option Nat
  node : Node

namespace Child

/-- The node of a field that holds one. -/
def one (field : String) (node : Node) : Child := { field := field, index := none, node := node }

/-- The node of a field that may hold one. -/
def opt (field : String) (node : Option Node) : List Child := node.toList.map (one field)

/-- The nodes of a list field, counted from `start`. -/
def manyFrom (field : String) (start : Nat) : List Node → List Child
  | [] => []
  | n :: ns => { field := field, index := some start, node := n } :: manyFrom field (start + 1) ns

/-- The nodes of a list field. -/
def many (field : String) (nodes : List Node) : List Child := manyFrom field 0 nodes

end Child

open Child (one opt many)

/-- A name as a node. -/
def Ident.node (i : Ident) : Node := .expr (.ident i)

/-- A block as a node. -/
def Block.node (b : Block) : Node := .stmt (.block b)

/-- An array literal as a node. -/
def ArrayLit.node (a : ArrayLit) : Node := .expr (.array a)

/-- The children of an expression. -/
def Expr.children : Expr → List Child
  | .literal _ | .ident _ | .bad _ => []
  | .array (.mk _ elems) => many "elems" (elems.map .expr)
  | .index _ x i => [one "x" (.expr x), one "index" (.expr i)]
  | .select _ x sel => [one "x" (.expr x), one "sel" sel.node]
  | .call _ fn args => one "fun" (.expr fn) :: many "args" (args.map .expr)
  | .new _ type args len elems =>
    one "type" (.typeName type) :: many "args" (args.map .expr)
      ++ opt "len" (len.map .expr) ++ opt "elems" (elems.map (·.node))
  | .paren _ x => [one "x" (.expr x)]
  | .unary _ _ x _ => [one "x" (.expr x)]
  | .binary _ _ x y => [one "x" (.expr x), one "y" (.expr y)]
  | .assign _ _ target value => [one "target" (.expr target), one "value" (.expr value)]

/-- The children of a statement. -/
def Stmt.children : Stmt → List Child
  | .block (.mk _ stmts) => many "stmts" (stmts.map .stmt)
  | .varDecl d =>
    [one "type" (.typeName d.type), one "name" d.name.node] ++ opt "init" (d.init.map .expr)
  | .expr _ x => [one "x" (.expr x)]
  | .ifElse _ cond body elseIfs otherwise =>
    [one "cond" (.expr cond), one "then" body.node] ++ many "elseIfs" (elseIfs.map .elseIf)
      ++ opt "else" (otherwise.map (·.node))
  | .whileLoop _ cond body => [one "cond" (.expr cond), one "body" body.node]
  | .doWhile _ body cond => [one "body" body.node, one "cond" (.expr cond)]
  | .forLoop _ init cond update body =>
    opt "init" (init.map .stmt) ++ opt "cond" (cond.map .expr) ++ opt "update" (update.map .expr)
      ++ [one "body" body.node]
  | .tryCatch _ body catches cleanup =>
    one "body" body.node :: many "catches" (catches.map .catchClause)
      ++ opt "finally" (cleanup.map (·.node))
  | .ret _ result => opt "result" (result.map .expr)
  | .classDecl _ _ name members => one "name" name.node :: many "members" (members.map .stmt)
  | .methodDecl _ _ result name params body =>
    [one "result" (.typeName result), one "name" name.node] ++ many "params" (params.map .param)
      ++ [one "body" body.node]
  | .empty _ | .bad _ => []

namespace Node

/-- The kind of a node. -/
def kind : Node → NodeKind
  | .program _ => .program
  | .stmt s => s.kind
  | .expr x => x.kind
  | .elseIf _ => .elseIf
  | .catchClause _ => .catchClause
  | .param _ => .param
  | .typeName _ => .typeName
  | .comment _ => .comment

/-- The location of a node. -/
def location : Node → Location
  | .program p => p.location
  | .stmt s => s.location
  | .expr x => x.location
  | .elseIf arm => arm.location
  | .catchClause c => c.location
  | .param p => p.location
  | .typeName t => t.location
  | .comment c => c.location

/-- The children of a node, in the order of the text. -/
def children : Node → List Child
  | .program p => many "body" (p.body.map .stmt)
  | .stmt s => s.children
  | .expr x => x.children
  | .elseIf (.mk _ cond body) => [one "cond" (.expr cond), one "body" body.node]
  | .catchClause (.mk _ type name body) =>
    [one "type" (.typeName type), one "name" name.node, one "body" body.node]
  | .param p => [one "type" (.typeName p.type), one "name" p.name.node]
  | .typeName _ | .comment _ => []

end Node

end SmallJava
