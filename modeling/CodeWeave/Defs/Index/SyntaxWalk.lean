import CodeWeave.Defs.Index.Store
import CodeWeave.Defs.Text

/-! `symbols`: the declarations of a tree. -/

namespace CodeWeave

/-- A node of a tree: its kind, the field of its parent it is, its text, the rows it starts and
ends on, and its children. -/
inductive SyntaxNode
  | node (kind : Text) (field : Option Text) (text : Text) (startRow endRow : Nat)
    (children : List SyntaxNode)

namespace SyntaxNode

def kind : SyntaxNode → Text
  | node kind _ _ _ _ _ => kind

def field : SyntaxNode → Option Text
  | node _ field _ _ _ _ => field

def text : SyntaxNode → Text
  | node _ _ text _ _ _ => text

def startRow : SyntaxNode → Nat
  | node _ _ _ startRow _ _ => startRow

def endRow : SyntaxNode → Nat
  | node _ _ _ _ endRow _ => endRow

def children : SyntaxNode → List SyntaxNode
  | node _ _ _ _ _ children => children

mutual

def count : SyntaxNode → Nat
  | node _ _ _ _ _ children => countAll children + 1

def countAll : List SyntaxNode → Nat
  | [] => 0
  | tree :: rest => tree.count + countAll rest

end

theorem countAll_append (first second : List SyntaxNode) :
    countAll (first ++ second) = countAll first + countAll second := by
  induction first with
  | nil => rw [List.nil_append, countAll, Nat.zero_add]
  | cons tree rest ih => rw [List.cons_append, countAll, countAll, ih, Nat.add_assoc]

theorem count_eq (tree : SyntaxNode) : tree.count = countAll tree.children + 1 := by
  cases tree
  rw [count, children]

end SyntaxNode

def declarationKinds : List String :=
  ["function_definition", "class_definition", "decorated_definition", "function_declaration",
    "generator_function_declaration", "method_definition", "class_declaration",
    "interface_declaration", "type_alias_declaration", "function_item", "struct_item", "enum_item",
    "trait_item", "impl_item", "type_item", "mod_item", "method_declaration", "type_declaration",
    "enum_declaration", "record_declaration", "namespace_declaration", "struct_specifier",
    "enum_specifier", "union_specifier", "template_declaration"]

def isDeclaration (kind : Text) : Bool := String.ofList kind ∈ declarationKinds

def identifierKinds : List String :=
  ["identifier", "field_identifier", "property_identifier", "type_identifier",
    "namespace_identifier", "name"]

def findIdentifier (node : SyntaxNode) : Option SyntaxNode :=
  node.children.find? fun child => String.ofList child.kind ∈ identifierKinds

def nameNode (node : SyntaxNode) : Option SyntaxNode :=
  (node.children.find? fun child => child.field = some "name".toList).or (findIdentifier node)

def signature (text : Text) : Text := (trim ((lines text).head?.getD [])).take 300

def declaredBy (node : SyntaxNode) : Option Symbol :=
  if isDeclaration node.kind then
    (nameNode node).map fun nameNode =>
      ⟨nameNode.text, node.kind, node.startRow + 1, node.endRow + 1, signature node.text⟩
  else none

def walk : List SyntaxNode → List Symbol
  | [] => []
  | node :: stack => (declaredBy node).toList ++ walk (node.children ++ stack)
termination_by stack => SyntaxNode.countAll stack
decreasing_by
  rw [SyntaxNode.countAll_append, SyntaxNode.countAll, SyntaxNode.count_eq]
  omega

namespace SyntaxNode

inductive Ordered : SyntaxNode → Prop
  | node {tree : SyntaxNode} : tree.startRow ≤ tree.endRow →
    (∀ child ∈ tree.children, Ordered child) → Ordered tree

theorem Ordered.rows {tree : SyntaxNode} (ordered : tree.Ordered) :
    tree.startRow ≤ tree.endRow := by
  cases ordered
  assumption

theorem Ordered.children {tree : SyntaxNode} (ordered : tree.Ordered) :
    ∀ child ∈ tree.children, child.Ordered := by
  cases ordered
  assumption

end SyntaxNode

/-- The parsers of tree-sitter: a path's parser, if there is one, makes a tree of a content. -/
structure SyntaxParsers where
  parse : Text → Text → Option SyntaxNode
  ordered : ∀ path content tree, parse path content = some tree → tree.Ordered

def extractSymbols (parsers : SyntaxParsers) (path content : Text) : List Symbol :=
  match parsers.parse path content with
  | none => []
  | some tree => walk [tree]

def Symbol.Ordered (symbol : Symbol) : Prop := symbol.startLine ≤ symbol.endLine

theorem ordered_of_declaredBy {node : SyntaxNode} (ordered : node.Ordered) {symbol : Symbol}
    (declares : declaredBy node = some symbol) : symbol.Ordered := by
  rw [declaredBy] at declares
  split at declares
  · obtain ⟨name, -, rfl⟩ := Option.map_eq_some_iff.mp declares
    exact Nat.succ_le_succ ordered.rows
  · cases declares

theorem ordered_of_mem_walk {stack : List SyntaxNode} (ordered : ∀ tree ∈ stack, tree.Ordered) :
    ∀ symbol ∈ walk stack, symbol.Ordered := by
  induction stack using walk.induct with
  | case1 =>
    intro symbol mem
    rw [walk] at mem
    cases mem
  | case2 node stack ih =>
    intro symbol mem
    rw [walk] at mem
    have here := ordered node List.mem_cons_self
    rcases List.mem_append.mp mem with own | below
    · exact ordered_of_declaredBy here (Option.mem_toList.mp own)
    · refine ih (fun tree among => ?_) symbol below
      rcases List.mem_append.mp among with child | later
      · exact here.children tree child
      · exact ordered tree (List.mem_cons_of_mem _ later)

theorem ordered_of_mem_extractSymbols (parsers : SyntaxParsers) {path content : Text} :
    ∀ symbol ∈ extractSymbols parsers path content, symbol.Ordered := by
  rw [extractSymbols]
  split
  · exact fun _ mem => absurd mem List.not_mem_nil
  · next tree parsed =>
    refine ordered_of_mem_walk fun other mem => ?_
    rw [List.mem_singleton.mp mem]
    exact parsers.ordered path content tree parsed

end CodeWeave
