import DefUse.Fault

/-!
# Directed graphs

A graph is a successor function together with a list of the nodes that have successors.  The
list bounds every search: a search that stays inside it ends.

**Results.** `Digraph.Reaches` is reachability by zero or more edges and `Digraph.Leads` by one or
more; graphs are read from tables of successor lists.
-/

namespace DefUse

/-- A directed graph: a successor function and the nodes it matters for. -/
structure Digraph (α : Type) where
  /-- The nodes of the graph. -/
  nodes : List α
  /-- The successors of a node, in order. -/
  succs : α → List α

namespace Digraph

variable {α : Type}

/-- The number of edges that leave the listed nodes. -/
def edgeCount (g : Digraph α) : Nat :=
  g.nodes.foldl (fun n v => n + (g.succs v).length) 0

/-- Zero or more edges lead from one node to another. -/
inductive Reaches (g : Digraph α) : α → α → Prop where
  | refl (v : α) : Reaches g v v
  | step {u v w : α} (h : v ∈ g.succs u) (rest : Reaches g v w) : Reaches g u w

/-- One or more edges lead from one node to another. -/
def Leads (g : Digraph α) (u w : α) : Prop :=
  ∃ v ∈ g.succs u, g.Reaches v w

theorem Reaches.trans
    {g : Digraph α} {u v w : α}
    (huv : g.Reaches u v)
    (hvw : g.Reaches v w) :
    g.Reaches u w := by
  induction huv with
  | refl _ => exact hvw
  | step h _ ih => exact .step h (ih hvw)

theorem Reaches.single
    {g : Digraph α} {u v : α}
    (h : v ∈ g.succs u) :
    g.Reaches u v :=
  .step h (.refl v)

theorem Leads.reaches
    {g : Digraph α} {u w : α}
    (h : g.Leads u w) :
    g.Reaches u w := by
  obtain ⟨v, hv, hr⟩ := h
  exact .step hv hr

/-- The graph whose node `i` has the successors of row `i`. -/
def ofTable (rows : Array (List Int)) : Digraph Int where
  nodes := positions rows.size
  succs := fun v => (item? rows v).getD []

/-- The graph of named nodes; a name without a row has no successors. -/
def ofNames (rows : List (String × List String)) : Digraph String where
  nodes := rows.map Prod.fst
  succs := fun name => (rows.lookup name).getD []

/-- The graph with every edge turned round. -/
def reverse [DecidableEq α] (g : Digraph α) : Digraph α where
  nodes := g.nodes
  succs := fun v => g.nodes.filter fun u => v ∈ g.succs u

/-- The graph without the edges into a node. -/
def avoid [DecidableEq α] (g : Digraph α) (a : α) : Digraph α where
  nodes := g.nodes
  succs := fun v => (g.succs v).filter (· ≠ a)

end Digraph

end DefUse
