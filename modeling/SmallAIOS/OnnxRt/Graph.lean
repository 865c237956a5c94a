import SmallAIOS.Lib.Checked
import SmallAIOS.Lib.Kahn
import SmallAIOS.Lib.Word

/-!
# Execution graphs

A model is a graph of nodes that read and write tensors by their names. The nodes of control flow
have graphs of their own, which may read the tensors of the graphs around them. The builder compiles
the inner graphs, finds the nodes that each node depends on by the names of its inputs, and puts the
nodes in an order with Kahn's algorithm.

* `topologicalSort_eq`: the sort returns, and its queue is one of `Lib.Kahn`;
* `buildWithin_spec`: the parts of a graph that was built.
-/

namespace SmallAIOS.OnnxRt.Graph

open Lib List Nat Checked

inductive GraphError where
  | cyclicGraph
  | missingInput (name : String)
  | nestingTooDeep
  deriving DecidableEq

/-! ## Models -/

/-- An attribute of a node, which may be a graph. -/
structure AttributeProto (γ : Type) where
  name : String
  g : Option γ

structure NodeProto (γ : Type) where
  input : List String
  output : List String
  name : String := ""
  opType : String := ""
  domain : String := ""
  «attribute» : List (AttributeProto γ) := []

structure ValueInfoProto where
  name : String

structure TensorProto where
  name : String

structure GraphProto where
  node : List (NodeProto GraphProto)
  name : String := ""
  input : List ValueInfoProto := []
  output : List ValueInfoProto := []
  initializer : List TensorProto := []

/-! ## Execution graphs -/

/-- A node, by its index in the graph, with the indices of those it depends on. -/
structure ExecutionNode (γ : Type) where
  nodeIndex : ℕ
  opType : String
  domain : String
  name : String
  inputs : List String
  outputs : List String
  dependencies : List ℕ
  attributes : List (AttributeProto GraphProto)
  innerGraphs : List (String × γ)

structure ExecutionGraph where
  nodes : List (ExecutionNode ExecutionGraph)
  topologicalOrder : List ℕ
  inputNames : List String
  outputNames : List String

def maxGraphNestingDepth : ℕ := 16

variable {γ : Type}

/-- The inner graphs of a node, by the names of its attributes. The last one of a name is kept. -/
def compileInner (inner : GraphProto → Checked GraphError γ) :
    List (AttributeProto GraphProto) → List (String × γ) → Checked GraphError (List (String × γ))
  | [], graphs => pure graphs
  | attr :: attrs, graphs =>
    match attr.g with
    | none => compileInner inner attrs graphs
    | some proto => do
      let exec ← inner proto
      compileInner inner attrs (graphs.filter (·.1 ≠ attr.name) ++ [(attr.name, exec)])

/-- The nodes, from the index `i` on, which depend on nothing yet. -/
def createExecutionNodes (inner : GraphProto → Checked GraphError γ) :
    ℕ → List (NodeProto GraphProto) → Checked GraphError (List (ExecutionNode γ))
  | _, [] => pure []
  | i, proto :: protos => do
    let innerGraphs ← compileInner inner proto.attribute []
    let nodes ← createExecutionNodes inner (i + 1) protos
    pure ({
      nodeIndex := i
      opType := proto.opType
      domain := proto.domain
      name := proto.name
      inputs := proto.input
      outputs := proto.output
      dependencies := []
      attributes := proto.attribute
      innerGraphs := innerGraphs } :: nodes)

def buildOutputProducerMap (nodes : List (ExecutionNode γ)) : List (String × ℕ) :=
  nodes.flatMap fun node => node.outputs.map fun name => (name, node.nodeIndex)

/-- The node that writes the input is added, unless it is there. An empty name is that of an input
    that is not given. -/
def resolveSingleInput (inputNames initializerNames : List String)
    (outputProducers : List (String × ℕ)) (allowOuterRefs : Bool) (deps : List ℕ)
    (inputName : String) : Except GraphError (List ℕ) :=
  if inputName = "" then .ok deps
  else if inputName ∈ inputNames then .ok deps
  else if inputName ∈ initializerNames then .ok deps
  else match outputProducers.find? (·.1 = inputName) with
    | some (_, prodIdx) => .ok (if prodIdx ∈ deps then deps else deps ++ [prodIdx])
    | none => if allowOuterRefs then .ok deps else .error (.missingInput inputName)

def resolveDependencies (nodes : List (ExecutionNode γ)) (inputNames initializerNames : List String)
    (outputProducers : List (String × ℕ)) (allowOuterRefs : Bool) :
    Except GraphError (List (List ℕ)) :=
  nodes.mapM fun node => node.inputs.foldlM
    (resolveSingleInput inputNames initializerNames outputProducers allowOuterRefs) []

/-! ## The sort -/

/-- The number of nodes that each node depends on, and the nodes that depend on none. -/
def computeInDegrees (nodes : List (ExecutionNode γ)) : Option (List ℕ × List ℕ) :=
  (nodes.foldlM (fun deg node => setAt deg node.nodeIndex node.dependencies.length)
    (replicate nodes.length 0)).map fun deg =>
      (deg, (deg.zipIdx.filter (·.1 = 0)).map (·.2))

/-- The nodes that depend on the current one wait for one less, and are ready if it was the last. -/
def processDependents (nodes : List (ExecutionNode γ)) (current : ℕ) (inDegree queue : List ℕ) :
    Option (List ℕ × List ℕ) :=
  nodes.foldlM (fun (deg, queue) node =>
    if current ∈ node.dependencies then
      deg[node.nodeIndex]?.bind fun d => (Word.sub d 1).bind fun d =>
        (setAt deg node.nodeIndex d).map fun deg =>
          (deg, if d = 0 then queue ++ [node.nodeIndex] else queue)
    else some (deg, queue)) (inDegree, queue)

structure SortState where
  inDegree : List ℕ
  queue : List ℕ
  head : ℕ
  sorted : List ℕ

/-- The loop of the sort. It is not run out of fuel if there is some for each node. -/
def sortLoop (nodes : List (ExecutionNode γ)) : ℕ → SortState → Option SortState
  | fuel, s =>
    match s.queue[s.head]? with
    | none => some s
    | some current =>
      match fuel with
      | 0 => none
      | fuel + 1 => (processDependents nodes current s.inDegree s.queue).bind fun (deg, queue) =>
        sortLoop nodes fuel
          { inDegree := deg, queue := queue, head := s.head + 1, sorted := s.sorted ++ [current] }

def topologicalSort (nodes : List (ExecutionNode γ)) : Checked GraphError (List ℕ) :=
  if nodes.length = 0 then pure []
  else do
    let (deg, queue) ← need (computeInDegrees nodes)
    let s ← need (sortLoop nodes nodes.length
      { inDegree := deg, queue := queue, head := 0, sorted := [] })
    if s.sorted.length ≠ nodes.length then lift (.error .cyclicGraph) else pure s.sorted

/-! ## The builder -/

/-- A graph in which the others may be nested `remaining - 1` deep. -/
def buildWithin : ℕ → GraphProto → Bool → Checked GraphError ExecutionGraph
  | 0, _, _ => lift (.error .nestingTooDeep)
  | remaining + 1, graph, allowOuterRefs => do
    let inputNames := graph.input.map (·.name)
    let nodes ← createExecutionNodes (buildWithin remaining · true) 0 graph.node
    let depsPerNode ← lift (resolveDependencies nodes inputNames
      (graph.initializer.map (·.name)) (buildOutputProducerMap nodes) allowOuterRefs)
    let nodes := zipWith (fun node deps => { node with dependencies := deps }) nodes
      depsPerNode
    let topologicalOrder ← topologicalSort nodes
    pure {
      nodes := nodes
      topologicalOrder := topologicalOrder
      inputNames := inputNames
      outputNames := graph.output.map (·.name) }

def buildExecutionGraphWithDepth (graph : GraphProto) (depth : ℕ) (allowOuterRefs : Bool) :
    Checked GraphError ExecutionGraph :=
  buildWithin (maxGraphNestingDepth + 1 - depth) graph allowOuterRefs

def buildExecutionGraph (graph : GraphProto) : Checked GraphError ExecutionGraph :=
  buildExecutionGraphWithDepth graph 0 false

/-! ## What the sort does -/

/-- The nodes are at their indices, and what each one depends on is listed once. -/
structure Indexed (nodes : List (ExecutionNode γ)) : Prop where
  nodeIndex : ∀ (i : ℕ) (node : ExecutionNode γ), nodes[i]? = some node → node.nodeIndex = i
  nodup : ∀ node ∈ nodes, node.dependencies.Nodup

/-- The node `b` depends on the node `d`. -/
def DependsOn (nodes : List (ExecutionNode γ)) (d b : ℕ) : Prop :=
  ∃ node, nodes[b]? = some node ∧ d ∈ node.dependencies

/-- The number of nodes that a node waits for. -/
def waiting (done : List ℕ) (node : ExecutionNode γ) : ℕ :=
  node.dependencies.countP (· ∉ done)

/-- The node is ready, now that the current one is done. -/
def readyAfter (done : List ℕ) (current : ℕ) (node : ExecutionNode γ) : Bool :=
  current ∈ node.dependencies && waiting (done ++ [current]) node = 0

variable {nodes pre post : List (ExecutionNode γ)} {node : ExecutionNode γ} {done : List ℕ}
  {current d b : ℕ}

theorem Indexed.nodeIndex_append (h : Indexed (pre ++ node :: post)) :
    node.nodeIndex = pre.length := by
  refine h.nodeIndex pre.length node ?_
  rw [getElem?_append_right (Nat.le_refl _), Nat.sub_self, getElem?_cons_zero]

/-- The node at the end of what is written is written next. -/
theorem setAt_append {α : Type} (l l' : List α) (x y : α) :
    setAt (l ++ x :: l') l.length y = some (l ++ y :: l') := by
  have hlt : l.length < (l ++ x :: l').length := by
    rw [length_append, length_cons]
    omega
  rw [setAt, if_pos hlt, set_append_right _ _ (Nat.le_refl _), Nat.sub_self, set_cons_zero]

theorem waiting_nil (node : ExecutionNode γ) : waiting [] node = node.dependencies.length := by
  rw [waiting]
  simp

theorem waiting_eq_zero : waiting done node = 0 ↔ ∀ d ∈ node.dependencies, d ∈ done := by
  simp [waiting]

theorem dependsOn_iff (hb : nodes[b]? = some node) :
    DependsOn nodes d b ↔ d ∈ node.dependencies := by
  simp [DependsOn, hb]

theorem countP_notMem_append {l : List ℕ} (hl : l.Nodup) (hc : current ∉ done) :
    l.countP (· ∉ done) = l.countP (· ∉ done ++ [current]) + if current ∈ l then 1 else 0 := by
  induction l with
  | nil => rfl
  | cons d l ih =>
    rw [nodup_cons] at hl
    rw [countP_cons, countP_cons, ih hl.2]
    by_cases hd : d = current
    · subst hd
      simp [hc, hl.1]
    · have hne : current ≠ d := fun h => hd h.symm
      simp [hd, hne]
      omega

theorem foldlM_setAt (pre : List (ExecutionNode γ)) (h : Indexed (pre ++ post)) :
    post.foldlM (fun deg node => setAt deg node.nodeIndex node.dependencies.length)
      (pre.map (waiting []) ++ replicate post.length 0) =
    some ((pre ++ post).map (waiting [])) := by
  induction post generalizing pre with
  | nil =>
    rw [length_nil, replicate_zero, append_nil, append_nil]
    rfl
  | cons node post ih =>
    have hset := setAt_append (pre.map (waiting [])) (replicate post.length 0) 0
    rw [length_map] at hset
    have happ : pre.map (waiting []) ++ waiting [] node :: replicate post.length 0 =
        (pre ++ [node]).map (waiting []) ++ replicate post.length 0 := by
      rw [map_append, append_assoc]
      rfl
    rw [append_cons] at h
    have hind : Indexed (pre ++ node :: post) := by rwa [append_cons]
    rw [length_cons, replicate_succ, foldlM_cons, hind.nodeIndex_append, ← waiting_nil, hset, happ]
    refine (ih _ h).trans ?_
    rw [← append_cons]

theorem computeInDegrees_eq (h : Indexed nodes) :
    computeInDegrees nodes = some (nodes.map (waiting []),
      ((nodes.map (waiting [])).zipIdx.filter (·.1 = 0)).map (·.2)) := by
  have hfold := foldlM_setAt [] h
  rw [map_nil, nil_append, nil_append] at hfold
  rw [computeInDegrees, hfold, Option.map_some]

/-- The nodes wait for one less, and those that are ready are put at the end of the queue. -/
theorem processDependents_append (pre : List (ExecutionNode γ)) (h : Indexed (pre ++ post))
    (hc : current ∉ done) {w : ExecutionNode γ → ℕ} (hw : waiting (done ++ [current]) = w)
    (queue : List ℕ) :
    processDependents post current (pre.map w ++ post.map (waiting done)) queue =
    some ((pre ++ post).map w,
      queue ++ (post.filter (readyAfter done current)).map (·.nodeIndex)) := by
  induction post generalizing pre queue with
  | nil =>
    rw [append_nil, map_nil, append_nil, filter_nil, map_nil, append_nil]
    rfl
  | cons node post ih =>
    have hind := h.nodeIndex_append
    have hlen : (pre.map w).length = pre.length := length_map _
    -- A node that depends on the current one waits for one less.
    have hwait : waiting done node = w node + if current ∈ node.dependencies then 1 else 0 :=
      hw ▸ countP_notMem_append (h.nodup node (by simp)) hc
    have happ : pre.map w ++ w node :: post.map (waiting done) =
        (pre ++ [node]).map w ++ post.map (waiting done) := by
      rw [map_append, append_assoc]
      rfl
    rw [append_cons pre node post] at h ⊢
    rw [processDependents, foldlM_cons]
    by_cases hcur : current ∈ node.dependencies
    · rw [if_pos hcur] at hwait
      have hget : (pre.map w ++ (node :: post).map (waiting done))[node.nodeIndex]? =
          some (w node + 1) := by
        rw [hind, ← hlen, getElem?_append_right (Nat.le_refl _), Nat.sub_self, map_cons,
          getElem?_cons_zero, hwait]
      have hset : setAt (pre.map w ++ (node :: post).map (waiting done)) node.nodeIndex (w node) =
          some ((pre ++ [node]).map w ++ post.map (waiting done)) := by
        rw [hind, ← hlen, map_cons, setAt_append, happ]
      have hsub : Word.sub (w node + 1) 1 = some (w node) := Word.sub_eq_some.2 (add_comm _ _)
      dsimp only
      rw [if_pos hcur, hget, Option.bind_some, hsub, Option.bind_some, hset]
      refine (ih _ h _).trans ?_
      congr 2
      by_cases hzero : w node = 0
      · rw [if_pos hzero, filter_cons_of_pos (by simp [readyAfter, hcur, hw, hzero]),
          map_cons, append_assoc, singleton_append]
      · rw [if_neg hzero, filter_cons_of_neg (by simp [readyAfter, hw, hzero])]
    · rw [if_neg hcur, add_zero] at hwait
      dsimp only
      rw [if_neg hcur, map_cons, hwait, happ]
      refine (ih _ h _).trans ?_
      rw [filter_cons_of_neg (by simp [readyAfter, hcur])]

/-! ## The loop of the sort -/

/-- What holds in the loop of the sort. -/
structure Sorting (nodes : List (ExecutionNode γ)) (s : SortState) : Prop where
  sorted_eq : s.sorted = s.queue.take s.head
  inDegree_eq : s.inDegree = nodes.map (waiting s.sorted)
  isQueue : Kahn.Queue (DependsOn nodes) (range nodes.length) s.sorted (s.queue.drop s.head)

variable {s : SortState}

/-- Nodes that are listed by their indices are in order. -/
theorem Indexed.pairwise_nodeIndex (h : Indexed nodes) (p : ExecutionNode γ → Bool) :
    ((nodes.filter p).map (·.nodeIndex)).Pairwise (· < ·) := by
  have hall : (nodes.map (·.nodeIndex)).Pairwise (· < ·) := by
    rw [pairwise_map, pairwise_iff_getElem]
    intro i j hi hj hij
    rwa [h.nodeIndex i _ (getElem?_eq_getElem hi), h.nodeIndex j _ (getElem?_eq_getElem hj)]
  exact hall.sublist (filter_sublist.map _)

theorem Indexed.mem_nodeIndex (h : Indexed nodes) (p : ExecutionNode γ → Bool) {b : ℕ} :
    b ∈ (nodes.filter p).map (·.nodeIndex) ↔ ∃ node, nodes[b]? = some node ∧ p node := by
  simp only [mem_map, mem_filter]
  constructor
  · rintro ⟨node, ⟨hmem, hp⟩, rfl⟩
    obtain ⟨i, hi⟩ := mem_iff_getElem?.1 hmem
    rw [h.nodeIndex i node hi]
    exact ⟨node, hi, hp⟩
  · rintro ⟨node, hb, hp⟩
    exact ⟨node, ⟨mem_of_getElem? hb, hp⟩, h.nodeIndex b node hb⟩

/-- The queue starts with the nodes that depend on nothing. -/
theorem sorting_init (nodes : List (ExecutionNode γ)) :
    Sorting nodes ⟨nodes.map (waiting []),
      ((nodes.map (waiting [])).zipIdx.filter (·.1 = 0)).map (·.2), 0, []⟩ where
  sorted_eq := rfl
  inDegree_eq := rfl
  isQueue := by
    rw [drop_zero]
    refine Kahn.Queue.init ?_ ?_
    · have hrange : ((nodes.map (waiting [])).zipIdx.map (·.2)).Pairwise (· < ·) := by
        rw [zipIdx_map_snd]
        exact pairwise_lt_range'
      exact hrange.sublist (filter_sublist.map _)
    · intro b
      simp only [mem_map, mem_filter, decide_eq_true_eq, Prod.exists,
        mem_zipIdx_iff_getElem?, getElem?_map, mem_range]
      constructor
      · rintro ⟨d, i, ⟨hi, rfl⟩, rfl⟩
        obtain ⟨node, hnode, hzero⟩ := Option.map_eq_some_iff.1 hi
        refine ⟨(List.getElem?_eq_some_iff.1 hnode).1, fun d hd => ?_⟩
        exact not_mem_nil (waiting_eq_zero.1 hzero d ((dependsOn_iff hnode).1 hd))
      · rintro ⟨hb, hdeps⟩
        refine ⟨0, b, ⟨?_, rfl⟩, rfl⟩
        rw [getElem?_eq_getElem hb, Option.map_some, Option.some_inj, waiting_eq_zero]
        exact fun d hd => absurd ((dependsOn_iff (getElem?_eq_getElem hb)).2 hd) (hdeps d)

section

variable (h : Sorting nodes s)
include h

/-- A node is taken from the queue. -/
theorem Sorting.step (hn : Indexed nodes) (hcur : s.queue[s.head]? = some current) :
    ∃ deg queue, processDependents nodes current s.inDegree s.queue = some (deg, queue) ∧
      Sorting nodes ⟨deg, queue, s.head + 1, s.sorted ++ [current]⟩ := by
  obtain ⟨hlt, hget⟩ := List.getElem?_eq_some_iff.1 hcur
  have hdrop : s.queue.drop s.head = current :: s.queue.drop (s.head + 1) := by
    rw [drop_eq_getElem_cons hlt, hget]
  have hq := h.isQueue
  rw [hdrop] at hq
  have hnot : current ∉ s.sorted := by
    intro hmem
    exact (nodup_append.1 hq.nodup).2.2 current hmem current mem_cons_self rfl
  have hp := processDependents_append [] hn hnot rfl s.queue
  rw [← h.inDegree_eq] at hp
  refine ⟨_, _, hp, ?_, rfl, ?_⟩
  · rw [take_append_of_le_length hlt, take_succ_eq_append_getElem hlt, hget, h.sorted_eq]
  · rw [drop_append_of_le_length hlt]
    refine hq.step (hn.pairwise_nodeIndex _) ?_
    intro b
    rw [hn.mem_nodeIndex]
    simp only [mem_range, readyAfter, Bool.and_eq_true, decide_eq_true_eq, waiting_eq_zero,
      mem_append, mem_singleton]
    constructor
    · rintro ⟨node, hnode, hmem, hall⟩
      refine ⟨(List.getElem?_eq_some_iff.1 hnode).1, ⟨node, hnode, hmem⟩, fun d hd => ?_⟩
      exact hall d ((dependsOn_iff hnode).1 hd)
    · rintro ⟨-, ⟨node, hnode, hmem⟩, hall⟩
      exact ⟨node, hnode, hmem, fun d hd => hall d ⟨node, hnode, hd⟩⟩

/-- There are no more nodes in the queue than in the graph. -/
theorem Sorting.length_le : s.queue.length ≤ nodes.length := by
  have hle := h.isQueue.subperm.length_le
  rwa [h.sorted_eq, take_append_drop, length_range] at hle

/-- The loop ends with an empty queue. -/
theorem Sorting.stop (hnone : s.queue[s.head]? = none) (fuel : ℕ) :
    ∃ s', sortLoop nodes fuel s = some s' ∧
      Kahn.Queue (DependsOn nodes) (range nodes.length) s'.sorted [] := by
  have hq := h.isQueue
  rw [drop_eq_nil_of_le (getElem?_eq_none_iff.1 hnone)] at hq
  exact ⟨s, by rw [Graph.sortLoop, hnone], hq⟩

theorem Sorting.sortLoop (hn : Indexed nodes) {fuel : ℕ} (hfuel : nodes.length ≤ fuel + s.head) :
    ∃ s', sortLoop nodes fuel s = some s' ∧
      Kahn.Queue (DependsOn nodes) (range nodes.length) s'.sorted [] := by
  induction fuel generalizing s with
  | zero =>
    rw [zero_add] at hfuel
    exact h.stop (getElem?_eq_none_iff.2 (h.length_le.trans hfuel)) 0
  | succ fuel ih =>
    cases hcur : s.queue[s.head]? with
    | none => exact h.stop hcur _
    | some current =>
      obtain ⟨deg, queue, hp, hs⟩ := h.step hn hcur
      obtain ⟨s', hloop, hq⟩ := ih hs (by dsimp only; omega)
      refine ⟨s', ?_, hq⟩
      rw [Graph.sortLoop, hcur]
      dsimp only
      rw [hp, Option.bind_some, hloop]

end

/-- The sort returns the nodes that were taken from the queue, or fails if some were not. -/
theorem topologicalSort_eq (hn : Indexed nodes) :
    ∃ order, Kahn.Queue (DependsOn nodes) (range nodes.length) order [] ∧
      topologicalSort nodes = some (if order.length = nodes.length then .ok order
        else .error .cyclicGraph) := by
  obtain ⟨s, hloop, hq⟩ := (sorting_init nodes).sortLoop hn (le_add_right nodes.length 0)
  refine ⟨s.sorted, hq, ?_⟩
  have hsort : topologicalSort nodes = if nodes.length = 0 then pure [] else
      if s.sorted.length ≠ nodes.length then lift (.error .cyclicGraph)
      else pure s.sorted := by
    rw [topologicalSort, need_bind (computeInDegrees_eq hn)]
    dsimp only
    rw [need_bind hloop]
  rw [hsort]
  by_cases hlen : s.sorted.length = nodes.length
  · rw [if_neg (not_not.2 hlen)]
    split_ifs with hzero
    · rw [eq_nil_of_length_eq_zero (hlen.trans hzero)]
      rfl
    · rfl
  · have hne : nodes.length ≠ 0 := by
      intro hzero
      have hle := hq.subperm.length_le
      rw [append_nil, hzero] at hle
      exact hlen ((le_zero.1 hle).trans hzero.symm)
    rw [if_neg hlen, if_neg hne, if_pos hlen]
    rfl

/-! ## What is built -/

namespace GraphProto

variable (g : GraphProto)

def inputNames : List String := g.input.map (·.name)

def initializerNames : List String := g.initializer.map (·.name)

/-- The node writes the tensor. An empty name is that of an output that is not used. -/
def Writes (p : ℕ) (name : String) : Prop :=
  name ≠ "" ∧ ∃ proto, g.node[p]? = some proto ∧ name ∈ proto.output

/-- Every tensor is written by one node at most. -/
def ProducedOnce : Prop := ∀ p q name, g.Writes p name → g.Writes q name → p = q

/-- The node `n` has an input that the node `p` writes, and that is not given to the graph. -/
def Depends (p n : ℕ) : Prop :=
  ∃ proto name, g.node[n]? = some proto ∧ name ∈ proto.input ∧ name ∉ g.inputNames ∧
    name ∉ g.initializerNames ∧ g.Writes p name

end GraphProto

/-- The nodes are those of the model, from the index `i` on. -/
def Created (i : ℕ) (protos : List (NodeProto GraphProto)) (nodes : List (ExecutionNode γ)) :
    Prop :=
  nodes.map (fun node => (node.nodeIndex, node.inputs, node.outputs)) =
    (protos.zipIdx i).map fun p => (p.2, p.1.input, p.1.output)

variable {inner : GraphProto → Checked GraphError γ} {protos : List (NodeProto GraphProto)} {i : ℕ}

theorem created_of_ok (h : createExecutionNodes inner i protos = some (.ok nodes)) :
    Created i protos nodes := by
  induction protos generalizing i nodes with
  | nil =>
    cases h
    rfl
  | cons proto protos ih =>
    obtain ⟨graphs, -, h⟩ := bind_eq_ok h
    obtain ⟨rest, hrest, h⟩ := bind_eq_ok h
    cases h
    have hcreated := ih hrest
    rw [Created] at hcreated ⊢
    rw [map_cons, zipIdx_cons, map_cons, hcreated]

section Created

variable (h : Created 0 protos nodes) {j : ℕ}
include h

theorem Created.length_eq : nodes.length = protos.length := by
  have hlen := congrArg length h
  rwa [length_map, length_map, length_zipIdx] at hlen

theorem Created.getElem? (hj : nodes[j]? = some node) :
    ∃ proto, protos[j]? = some proto ∧ node.nodeIndex = j ∧ node.inputs = proto.input ∧
      node.outputs = proto.output := by
  have hget := congrArg (·[j]?) h
  simp only [getElem?_map, getElem?_zipIdx, hj, Option.map_map] at hget
  obtain ⟨proto, hproto, heq⟩ := Option.map_eq_some_iff.1 hget.symm
  simp only [Function.comp, zero_add, Prod.mk.injEq] at heq
  exact ⟨proto, hproto, heq.1.symm, heq.2.1.symm, heq.2.2.symm⟩

/-- The node of a model is at the same index. -/
theorem Created.exists_node {proto : NodeProto GraphProto} (hj : protos[j]? = some proto) :
    ∃ node, nodes[j]? = some node ∧ node.nodeIndex = j ∧ node.inputs = proto.input ∧
      node.outputs = proto.output := by
  have hlt : j < nodes.length := h.length_eq ▸ (List.getElem?_eq_some_iff.1 hj).1
  obtain ⟨proto', hproto, hnode⟩ := h.getElem? (getElem?_eq_getElem hlt)
  rw [hj] at hproto
  cases hproto
  exact ⟨_, getElem?_eq_getElem hlt, hnode⟩

end Created

variable {g : GraphProto} {name : String} {p : ℕ}

theorem mem_buildOutputProducerMap (h : Created 0 g.node nodes) (hname : name ≠ "") :
    (name, p) ∈ buildOutputProducerMap nodes ↔ g.Writes p name := by
  simp only [buildOutputProducerMap, mem_flatMap, mem_map, Prod.mk.injEq]
  constructor
  · rintro ⟨node, hmem, _, hout, rfl, rfl⟩
    obtain ⟨j, hj⟩ := mem_iff_getElem?.1 hmem
    obtain ⟨proto, hproto, hidx, -, houts⟩ := h.getElem? hj
    rw [hidx]
    exact ⟨hname, proto, hproto, houts ▸ hout⟩
  · rintro ⟨-, proto, hproto, hout⟩
    obtain ⟨node, hnode, hidx, -, houts⟩ := h.exists_node hproto
    exact ⟨node, mem_of_getElem? hnode, name, houts ▸ hout, rfl, hidx⟩

/-- The node that is found for a name is the one that writes it. -/
theorem find?_producer (h : Created 0 g.node nodes) (hp : g.ProducedOnce) (hname : name ≠ "") :
    (∃ x, (buildOutputProducerMap nodes).find? (·.1 = name) = some (x, p)) ↔ g.Writes p name := by
  constructor
  · rintro ⟨x, hfind⟩
    have hx : x = name := by simpa using find?_some hfind
    subst hx
    exact (mem_buildOutputProducerMap h hname).1 (mem_of_find?_eq_some hfind)
  · intro hw
    have hmem := (mem_buildOutputProducerMap h hname).2 hw
    cases hfind : (buildOutputProducerMap nodes).find? (·.1 = name) with
    | none => exact absurd (find?_eq_none.1 hfind _ hmem) (by simp)
    | some q =>
      obtain ⟨x, q⟩ := q
      have hx : x = name := by simpa using find?_some hfind
      subst hx
      have hq := (mem_buildOutputProducerMap h hname).1 (mem_of_find?_eq_some hfind)
      rw [hp q p x hq hw]
      exact ⟨x, rfl⟩

/-! ## Dependencies -/

section Resolve

variable {ins inits : List String} {producers : List (String × ℕ)} {allowOuterRefs : Bool}

/-- The input is found to be written by the node. -/
def Resolves (inputNames initializerNames : List String) (outputProducers : List (String × ℕ))
    (name : String) (p : ℕ) : Prop :=
  name ≠ "" ∧ name ∉ inputNames ∧ name ∉ initializerNames ∧
    ∃ x, outputProducers.find? (·.1 = name) = some (x, p)

variable {deps deps' : List ℕ}

theorem resolveSingleInput_ok
    (h : resolveSingleInput ins inits producers allowOuterRefs deps name = .ok deps') :
    (deps.Nodup → deps'.Nodup) ∧ ∀ p, p ∈ deps' ↔
      p ∈ deps ∨ Resolves ins inits producers name p := by
  rw [resolveSingleInput] at h
  have hsame : ∀ {d : List ℕ}, (∀ p, ¬Resolves ins inits producers name p) →
      (d.Nodup → d.Nodup) ∧ ∀ p, p ∈ d ↔ p ∈ d ∨ Resolves ins inits producers name p := by
    intro d hno
    refine ⟨fun hd => hd, fun p => ?_⟩
    rw [or_iff_left (hno p)]
  split at h
  · next hempty =>
    cases h
    exact hsame fun p hr => hr.1 hempty
  split at h
  · next hin =>
    cases h
    exact hsame fun p hr => hr.2.1 hin
  split at h
  · next hinit =>
    cases h
    exact hsame fun p hr => hr.2.2.1 hinit
  · next hempty hin hinit =>
    split at h
    · next x q hfind =>
      have hres : ∀ p, Resolves ins inits producers name p ↔ p = q := by
        intro p
        constructor
        · rintro ⟨-, -, -, y, hy⟩
          rw [hfind] at hy
          cases hy
          rfl
        · rintro rfl
          exact ⟨hempty, hin, hinit, x, hfind⟩
      cases h
      split_ifs with hmem
      · refine ⟨fun hd => hd, fun p => ?_⟩
        rw [hres, or_iff_left_of_imp]
        rintro rfl
        exact hmem
      · refine ⟨fun hd => ?_, fun p => ?_⟩
        · rw [nodup_append]
          refine ⟨hd, nodup_singleton q, ?_⟩
          rintro a ha b hb rfl
          exact hmem (mem_singleton.1 hb ▸ ha)
        · rw [hres, mem_append, mem_singleton]
    · next hfind =>
      split_ifs at h
      cases h
      refine hsame fun p hr => ?_
      obtain ⟨x, hx⟩ := hr.2.2.2
      rw [hfind] at hx
      cases hx

theorem foldlM_resolveSingleInput_ok {inputs : List String}
    (h : inputs.foldlM (resolveSingleInput ins inits producers
      allowOuterRefs) deps = .ok deps') :
    (deps.Nodup → deps'.Nodup) ∧ ∀ p, p ∈ deps' ↔ p ∈ deps ∨
      ∃ name ∈ inputs, Resolves ins inits producers name p := by
  induction inputs generalizing deps with
  | nil =>
    cases h
    exact ⟨fun hd => hd, fun p => by simp⟩
  | cons name inputs ih =>
    obtain ⟨deps1, hone, h⟩ := bind_eq_ok h
    obtain ⟨hnd1, hmem1⟩ := resolveSingleInput_ok hone
    obtain ⟨hnd, hmem⟩ := ih h
    refine ⟨fun hd => hnd (hnd1 hd), fun p => ?_⟩
    simp only [hmem, hmem1, mem_cons, exists_eq_or_imp, or_assoc]

variable {depsPerNode : List (List ℕ)}

/-- What is listed for a node is found for its inputs. -/
theorem resolveDependencies_ok
    (h : resolveDependencies nodes ins inits producers allowOuterRefs =
      .ok depsPerNode) :
    depsPerNode.length = nodes.length ∧ ∀ (i : ℕ) node deps, nodes[i]? = some node →
      depsPerNode[i]? = some deps → deps.Nodup ∧ ∀ p, p ∈ deps ↔
        ∃ name ∈ node.inputs, Resolves ins inits producers name p := by
  rw [resolveDependencies] at h
  induction nodes generalizing depsPerNode with
  | nil =>
    cases h
    exact ⟨rfl, fun i node deps hi => by simp at hi⟩
  | cons node nodes ih =>
    rw [mapM_cons] at h
    obtain ⟨deps, hone, h⟩ := bind_eq_ok h
    obtain ⟨rest, hrest, h⟩ := bind_eq_ok h
    cases h
    obtain ⟨hlen, hall⟩ := ih hrest
    refine ⟨congrArg (· + 1) hlen, ?_⟩
    intro i node' deps' hnode hdeps
    cases i with
    | zero =>
      cases hnode
      cases hdeps
      obtain ⟨hnd, hmem⟩ := foldlM_resolveSingleInput_ok hone
      refine ⟨hnd nodup_nil, fun p => ?_⟩
      rw [hmem, or_iff_right not_mem_nil]
    | succ i => exact hall i node' deps' hnode hdeps

/-- The nodes with what they depend on. -/
theorem getElem?_zipWith_dependencies :
    (zipWith (fun node deps => { node with dependencies := deps }) nodes depsPerNode)[i]? =
      some node ↔ ∃ node0 deps, nodes[i]? = some node0 ∧ depsPerNode[i]? = some deps ∧
        node = { node0 with dependencies := deps } := by
  rw [getElem?_zipWith]
  cases nodes[i]? <;> cases depsPerNode[i]? <;> simp [eq_comm]

theorem indexed_zipWith (hc : Created 0 protos nodes)
    (h : resolveDependencies nodes ins inits producers allowOuterRefs = .ok depsPerNode) :
    Indexed (zipWith (fun node deps => { node with dependencies := deps }) nodes depsPerNode) := by
  have hdeps := (resolveDependencies_ok h).2
  constructor
  · intro i node hnode
    obtain ⟨node0, deps, hnode0, -, rfl⟩ := getElem?_zipWith_dependencies.1 hnode
    obtain ⟨-, -, hidx, -⟩ := hc.getElem? hnode0
    exact hidx
  · intro node hmem
    obtain ⟨i, hi⟩ := mem_iff_getElem?.1 hmem
    obtain ⟨node0, deps, hnode0, hdeps0, rfl⟩ := getElem?_zipWith_dependencies.1 hi
    exact (hdeps i node0 deps hnode0 hdeps0).1

/-- The nodes depend on each other as those of the model do. -/
theorem dependsOn_zipWith {g : GraphProto} (hc : Created 0 g.node nodes) (hp : g.ProducedOnce)
    (h : resolveDependencies nodes g.inputNames g.initializerNames (buildOutputProducerMap nodes)
      allowOuterRefs = .ok depsPerNode) :
    DependsOn (zipWith (fun node deps => { node with dependencies := deps }) nodes
      depsPerNode) d b ↔ g.Depends d b := by
  obtain ⟨hlen, hdeps⟩ := resolveDependencies_ok h
  constructor
  · rintro ⟨node, hnode, hd⟩
    obtain ⟨node0, deps, hnode0, hdeps0, rfl⟩ := getElem?_zipWith_dependencies.1 hnode
    obtain ⟨proto, hproto, -, hinputs, -⟩ := hc.getElem? hnode0
    obtain ⟨name, hname, hne, hin, hinit, hfind⟩ := ((hdeps b node0 deps hnode0 hdeps0).2 d).1 hd
    exact ⟨proto, name, hproto, hinputs ▸ hname, hin, hinit, (find?_producer hc hp hne).1 hfind⟩
  · rintro ⟨proto, name, hproto, hname, hin, hinit, hw⟩
    obtain ⟨node0, hnode0, -, hinputs, -⟩ := hc.exists_node hproto
    have hlt : b < depsPerNode.length := hlen ▸ (List.getElem?_eq_some_iff.1 hnode0).1
    have hdeps0 := getElem?_eq_getElem hlt
    refine ⟨_, getElem?_zipWith_dependencies.2 ⟨node0, _, hnode0, hdeps0, rfl⟩, ?_⟩
    refine ((hdeps b node0 _ hnode0 hdeps0).2 d).2 ⟨name, hinputs ▸ hname, hw.1, hin, hinit, ?_⟩
    exact (find?_producer hc hp hw.1).2 hw

end Resolve

/-! ## The builder -/

/-- The nodes of a graph that was built are those of the model, and are sorted by what they depend
    on. -/
theorem buildWithin_spec {remaining : ℕ} {allowOuterRefs : Bool}
    {eg : ExecutionGraph} (h : buildWithin remaining g allowOuterRefs = some (.ok eg))
    (hp : g.ProducedOnce) :
    eg.nodes.length = g.node.length ∧ (∀ d b, DependsOn eg.nodes d b ↔ g.Depends d b) ∧
      Kahn.Queue (DependsOn eg.nodes) (range eg.nodes.length) eg.topologicalOrder [] ∧
      eg.topologicalOrder.length = eg.nodes.length := by
  cases remaining with
  | zero => cases h
  | succ remaining =>
    obtain ⟨nodes, hnodes, h⟩ := bind_eq_ok h
    obtain ⟨depsPerNode, hdeps, h⟩ := bind_eq_ok h
    obtain ⟨order, horder, h⟩ := bind_eq_ok h
    cases h
    have hc := created_of_ok hnodes
    have hdeps := Option.some.inj hdeps
    obtain ⟨order', hq, hsort⟩ := topologicalSort_eq (indexed_zipWith hc hdeps)
    rw [hsort] at horder
    split_ifs at horder with hlen
    · cases horder
      refine ⟨?_, fun d b => dependsOn_zipWith hc hp hdeps, hq, hlen⟩
      rw [length_zipWith, (resolveDependencies_ok hdeps).1, min_self, hc.length_eq]
    · cases horder

theorem compileInner_ne_none
    (hinner : ∀ g, inner g ≠ none) (attrs : List (AttributeProto GraphProto))
    (graphs : List (String × γ)) : compileInner inner attrs graphs ≠ none := by
  induction attrs generalizing graphs with
  | nil => exact nofun
  | cons attr attrs ih =>
    rw [compileInner]
    split
    · exact ih graphs
    · intro h
      rcases bind_eq_none h with h | ⟨exec, -, h⟩
      · exact hinner _ h
      · exact ih _ h

theorem createExecutionNodes_ne_none
    (hinner : ∀ g, inner g ≠ none) (i : ℕ) (protos : List (NodeProto GraphProto)) :
    createExecutionNodes inner i protos ≠ none := by
  induction protos generalizing i with
  | nil => exact nofun
  | cons proto protos ih =>
    intro h
    rcases bind_eq_none h with h | ⟨graphs, -, h⟩
    · exact compileInner_ne_none hinner _ _ h
    · rcases bind_eq_none h with h | ⟨nodes, -, h⟩
      · exact ih _ h
      · cases h

/-- The builder returns for every model. -/
theorem buildWithin_ne_none (remaining : ℕ) (g : GraphProto) (allowOuterRefs : Bool) :
    buildWithin remaining g allowOuterRefs ≠ none := by
  induction remaining generalizing g allowOuterRefs with
  | zero => exact nofun
  | succ remaining ih =>
    intro h
    rcases bind_eq_none h with h | ⟨nodes, hnodes, h⟩
    · exact createExecutionNodes_ne_none (fun g => ih g true) 0 g.node h
    rcases bind_eq_none h with h | ⟨depsPerNode, hdeps, h⟩
    · cases h
    have hn := indexed_zipWith (created_of_ok hnodes) (Option.some.inj hdeps)
    obtain ⟨order, -, hsort⟩ := topologicalSort_eq hn
    rcases bind_eq_none h with h | ⟨_, -, h⟩
    · rw [hsort] at h
      cases h
    · cases h

end SmallAIOS.OnnxRt.Graph
