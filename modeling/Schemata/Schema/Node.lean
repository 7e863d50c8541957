import Schemata.Schema.Reverse

/-! Nodes that remember their reverses. The first reverse of a node, the reverse of that, and so on
are built when they are first asked for and kept; making the node nullable or nullish reaches all of
them. A copy of a node remembers nothing. -/
namespace Schemata

/-- A schema with the reverses built so far, each the reverse of the one before. -/
structure Node where
  schema : Schema
  reverses : List Schema

namespace Node

def ofSchema (s : Schema) : Node := ⟨s, []⟩

/-- The node itself, its reverse, the reverse of that, and so on as far as they have been built. -/
def levels (n : Node) : List Schema := n.schema :: n.reverses

def last (n : Node) : Schema := n.reverses.getLast?.getD n.schema

def extend (n : Node) : Run Node := do
  return { n with reverses := n.reverses ++ [← n.last.reverse] }

/-- Changes the node and every reverse built so far. -/
def mapLevels (change : Schema → Schema) (n : Node) : Node :=
  ⟨change n.schema, n.reverses.map change⟩

def nullable (n : Node) : Node := n.mapLevels Schema.nullable

def nullish (n : Node) : Node := n.mapLevels Schema.nullish

end Node
end Schemata
