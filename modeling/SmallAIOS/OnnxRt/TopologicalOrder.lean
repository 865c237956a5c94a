import SmallAIOS.OnnxRt.Graph

/-!
# The order of the nodes

A node reads its inputs, and one of control flow also reads what its inner graphs take from the
graph around it (`NodeProto.Reads`). It should run behind the nodes that write all this. But the
builder only looks at the inputs for what a node depends on, so a node may be put before one that
writes what its inner graphs take.

Where the order still fits is said by the paths of dependencies: the queue of the sort puts a node
before another one if all paths to it are before one to the other (`Lib.Kahn.Lower`). The sort
itself, of nodes that know what they depend on, fails only for a cycle (`topologicalSort_iff`).
-/

namespace SmallAIOS.OnnxRt.Graph

open Lib List Relation

def isControlFlowOp (opType : String) : Bool := opType = "If" || opType = "Loop" || opType = "Scan"

/-- The name is that of a tensor of the graph itself. -/
def GraphProto.Binds (g : GraphProto) (name : String) : Prop :=
  name ∈ g.inputNames ∨ name ∈ g.initializerNames ∨ ∃ node ∈ g.node, name ∈ node.output

/-- The tensors that a node reads: its inputs, and what is read in its inner graphs, or returned by
    them, and is not one of theirs. -/
inductive NodeProto.Reads : NodeProto GraphProto → String → Prop
  | input {node : NodeProto GraphProto} {name : String} :
    name ∈ node.input → name ≠ "" → Reads node name
  | captured {node inner : NodeProto GraphProto} {attr : AttributeProto GraphProto}
    {g : GraphProto} {name : String} : isControlFlowOp node.opType → attr ∈ node.attribute →
    attr.g = some g → inner ∈ g.node → Reads inner name → ¬g.Binds name → Reads node name
  | returned {node : NodeProto GraphProto} {attr : AttributeProto GraphProto} {g : GraphProto}
    {out : ValueInfoProto} : isControlFlowOp node.opType → attr ∈ node.attribute →
    attr.g = some g → out ∈ g.output → out.name ≠ "" → ¬g.Binds out.name → Reads node out.name

namespace GraphProto

variable (g : GraphProto)

/-- The node `n` reads what the node `p` writes. -/
def Needs (p n : ℕ) : Prop :=
  ∃ node name, g.node[n]? = some node ∧ node.Reads name ∧ g.Writes p name

end GraphProto

variable {g : GraphProto} {eg : ExecutionGraph} {p n : ℕ}

theorem GraphProto.Writes.lt {name : String} (h : g.Writes p name) : p < g.node.length := by
  obtain ⟨-, node, hnode, -⟩ := h
  exact (List.getElem?_eq_some_iff.1 hnode).1

theorem GraphProto.Needs.lt (h : g.Needs p n) : p < g.node.length ∧ n < g.node.length := by
  obtain ⟨node, name, hnode, -, hw⟩ := h
  exact ⟨hw.lt, (List.getElem?_eq_some_iff.1 hnode).1⟩

theorem producedOnce_of_nodup (h : (g.node.flatMap (·.output)).Nodup) : g.ProducedOnce := by
  have hdisj := pairwise_iff_getElem.1 (nodup_flatMap.1 h).2
  -- Two nodes with a common output are not one before the other.
  have hnot : ∀ {p q name}, g.Writes p name → g.Writes q name → ¬p < q := by
    rintro p q name ⟨-, node, hnode, hout⟩ ⟨-, node', hnode', hout'⟩ hlt
    obtain ⟨hp, rfl⟩ := List.getElem?_eq_some_iff.1 hnode
    obtain ⟨hq, rfl⟩ := List.getElem?_eq_some_iff.1 hnode'
    exact hdisj p q hp hq hlt hout hout'
  intro p q name hp hq
  exact Nat.le_antisymm (not_lt.1 (hnot hq hp)) (not_lt.1 (hnot hp hq))

/-- Two nodes one after the other, and a choice whose branch takes the output of the second one. -/
def choice (cond : String) : GraphProto where
  node := [{ input := ["x"], output := ["a"] }, { input := ["a"], output := ["t"] },
    { input := [cond], output := ["y"], opType := "If"
      «attribute» := [
        { name := "then_branch",
          g := some { node := [{ input := ["t"], output := ["z"] }], output := [⟨"z"⟩] } }] }]
  input := [⟨"x"⟩, ⟨"cond"⟩]

/-- The order of a graph that was built has each node once. Every node is behind all that write
    what it reads if, and only if, each path of dependencies to one of those is shorter than some
    path to the node, or of the same length and before it in the order of their nodes. -/
theorem topologicalOrder_iff {depth : ℕ} {allowOuterRefs : Bool}
    (hb : buildExecutionGraphWithDepth g depth allowOuterRefs = some (.ok eg))
    (hp : g.ProducedOnce) :
    (eg.topologicalOrder.Perm (range g.node.length) ∧
      ∀ p n, g.Needs p n → eg.topologicalOrder.idxOf p < eg.topologicalOrder.idxOf n) ↔
    ∀ p n, g.Needs p n → ∀ w, Kahn.PathTo g.Depends p w →
      ∃ w', Kahn.PathTo g.Depends n w' ∧
        (w.length < w'.length ∨ w.length = w'.length ∧ w < w') := by
  obtain ⟨hlen, hdeps, hq, hall⟩ := buildWithin_spec hb hp
  have hrel : DependsOn eg.nodes = g.Depends := by
    funext d b
    exact propext (hdeps d b)
  rw [hrel, hlen] at hq
  have hlast : eg.topologicalOrder.length = (range g.node.length).length := by
    rw [hall, hlen, length_range]
  have hiff : ∀ p n, g.Needs p n → (eg.topologicalOrder.idxOf p < eg.topologicalOrder.idxOf n ↔
      Kahn.Lower g.Depends p n) := fun p n hneeds =>
    (hq.lower_iff_of_length hlast (mem_range.2 hneeds.lt.1) (mem_range.2 hneeds.lt.2)).symm
  constructor
  · rintro ⟨-, h⟩ p n hneeds w hw
    obtain ⟨w', hw', hlt⟩ := (hiff p n hneeds).1 (h p n hneeds) w hw
    exact ⟨w', hw', Kahn.rank_lt_rank.1 hlt⟩
  · intro h
    refine ⟨hq.perm hlast, ?_⟩
    intro p n hneeds
    refine (hiff p n hneeds).2 ?_
    intro w hw
    obtain ⟨w', hw', hlt⟩ := h p n hneeds w hw
    exact ⟨w', hw', Kahn.rank_lt_rank.2 hlt⟩

/-- A choice on the output of the node before it. -/
theorem topologicalOrder_iff_of_choice :
    ∃ eg, buildExecutionGraph (choice "t") = some (.ok eg) ∧ eg.topologicalOrder = [0, 1, 2] ∧
      ((eg.topologicalOrder.Perm (range 3) ∧ ∀ p n, (choice "t").Needs p n →
        eg.topologicalOrder.idxOf p < eg.topologicalOrder.idxOf n) ↔
      ∀ p n, (choice "t").Needs p n → ∀ w, Kahn.PathTo (choice "t").Depends p w →
        ∃ w', Kahn.PathTo (choice "t").Depends n w' ∧
          (w.length < w'.length ∨ w.length = w'.length ∧ w < w')) := by
  obtain ⟨eg, hr, horder⟩ : ∃ eg, buildExecutionGraph (choice "t") = some (.ok eg) ∧
      eg.topologicalOrder = [0, 1, 2] := Checked.exists_ok (by decide +kernel)
  exact ⟨eg, hr, horder, topologicalOrder_iff hr (producedOnce_of_nodup (by decide))⟩

/-- A choice on an input of the graph is put before the node that writes what its branch takes. -/
theorem choice_before_captured :
    ∃ eg, buildExecutionGraph (choice "cond") = some (.ok eg) ∧ (choice "cond").ProducedOnce ∧
      (choice "cond").Needs 1 2 ∧ eg.topologicalOrder.idxOf 2 < eg.topologicalOrder.idxOf 1 := by
  obtain ⟨eg, hr, horder⟩ : ∃ eg, buildExecutionGraph (choice "cond") = some (.ok eg) ∧
      eg.topologicalOrder = [0, 2, 1] := Checked.exists_ok (by decide +kernel)
  refine ⟨eg, hr, producedOnce_of_nodup (by decide), ?_, ?_⟩
  · refine ⟨_, "t", rfl, ?_, by decide, _, rfl, mem_singleton.2 rfl⟩
    refine .captured rfl mem_cons_self rfl mem_cons_self (.input mem_cons_self (by decide)) ?_
    rintro (h | h | ⟨node, hnode, h⟩)
    · cases h
    · cases h
    · rw [mem_singleton.1 hnode] at h
      exact absurd (mem_singleton.1 h) (by decide)
  · rw [horder]
    decide

/-! ## The sort -/

/-- The sort fails exactly if some node depends on itself, directly or through others. Otherwise it
    returns each node once, behind all that it depends on. -/
theorem topologicalSort_iff {γ : Type} {nodes : List (ExecutionNode γ)} (hn : Indexed nodes)
    (hdeps : ∀ node ∈ nodes, ∀ d ∈ node.dependencies, d < nodes.length) :
    (topologicalSort nodes = some (.error .cyclicGraph) ↔ ∃ d, TransGen (DependsOn nodes) d d) ∧
    ((¬∃ d, TransGen (DependsOn nodes) d d) → ∃ order, topologicalSort nodes = some (.ok order) ∧
      order.Perm (range nodes.length) ∧
        ∀ d b, DependsOn nodes d b → order.idxOf d < order.idxOf b) := by
  obtain ⟨order, hq, hsort⟩ := topologicalSort_eq hn
  have hrange : ∀ d b, DependsOn nodes d b → d ∈ range nodes.length := by
    rintro d b ⟨node, hnode, hd⟩
    exact mem_range.2 (hdeps node (mem_of_getElem? hnode) d hd)
  rw [hsort]
  by_cases hlen : order.length = nodes.length
  · have hlast : order.length = (range nodes.length).length := by rw [hlen, length_range]
    have hbefore : ∀ d b, DependsOn nodes d b → order.idxOf d < order.idxOf b := by
      intro d b hd
      obtain ⟨node, hnode, -⟩ := id hd
      have hb := mem_range.2 (List.getElem?_eq_some_iff.1 hnode).1
      exact (hq.lower_iff_of_length hlast (hrange d b hd) hb).1 (Kahn.lower_of_rel hd)
    -- Along a cycle, the places of the nodes would grow.
    have hacyc : ¬∃ d, TransGen (DependsOn nodes) d d := by
      rintro ⟨d, hd⟩
      have hlt := hd.lift order.idxOf hbefore
      rw [transGen_eq_self] at hlt
      exact lt_irrefl _ hlt
    rw [if_pos hlen]
    exact ⟨iff_of_false nofun hacyc, fun _ => ⟨order, rfl, hq.perm hlast, hbefore⟩⟩
  · have hcyc : ∃ d, TransGen (DependsOn nodes) d d := by
      by_contra hno
      exact hlen ((hq.length_of_acyclic nodup_range hrange (not_exists.1 hno)).trans length_range)
    rw [if_neg hlen]
    exact ⟨iff_of_true rfl hcyc, (absurd hcyc)⟩

/-- Two nodes that depend on each other. -/
theorem cyclicGraph_of_two :
    topologicalSort (γ := Unit) [⟨0, "", "", "", [], [], [1], [], []⟩,
      ⟨1, "", "", "", [], [], [0], [], []⟩] = some (.error .cyclicGraph) := by
  refine (topologicalSort_iff ⟨?_, by decide⟩ (by decide)).1.2
    ⟨0, .tail (.single ⟨_, rfl, mem_singleton.2 rfl⟩) ⟨_, rfl, mem_singleton.2 rfl⟩⟩
  rintro (_ | _ | i) node ⟨⟩ <;> rfl

end SmallAIOS.OnnxRt.Graph
