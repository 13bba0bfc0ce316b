import Mathlib.Data.Finite.Defs
import Mathlib.Data.Fintype.EquivFin
import Mathlib.Data.Fintype.Basic
import Mathlib.Data.List.Perm.Subperm
import Mathlib.Logic.Relation
import Mathlib.Order.WellFounded
import Planner.Lib.OrdDict

/-! Directed graphs with labelled edges, kept in insertion order, and a
topological sort that releases a node when its last predecessor is done. -/

/-- Adding an edge that is already there replaces its label. -/
structure EdgeGraph (α β : Type) [DecidableEq α] where
  nodes : List α
  edges : OrdDict (α × α) β
  nodup_nodes : nodes.Nodup
  ends_mem : ∀ e ∈ edges.keys, e.1 ∈ nodes ∧ e.2 ∈ nodes

namespace EdgeGraph

variable {α β : Type} [DecidableEq α]

def empty : EdgeGraph α β := ⟨[], OrdDict.empty, List.nodup_nil, by simp⟩

def addNode (g : EdgeGraph α β) (v : α) : EdgeGraph α β :=
  if h : v ∈ g.nodes then g
  else ⟨g.nodes ++ [v], g.edges,
    by rw [List.nodup_append]; exact ⟨g.nodup_nodes, by simp, by rintro a ha b hb rfl; simp_all⟩,
    fun e he => ⟨List.mem_append_left _ (g.ends_mem e he).1,
      List.mem_append_left _ (g.ends_mem e he).2⟩⟩

theorem mem_nodes_addNode {g : EdgeGraph α β} {v w : α} :
    w ∈ (g.addNode v).nodes ↔ w = v ∨ w ∈ g.nodes := by
  by_cases h : v ∈ g.nodes
  · simp only [addNode, h, dite_true]
    exact ⟨Or.inr, fun hw => hw.elim (fun e => e ▸ h) id⟩
  · simp only [addNode, h, dite_false, List.mem_append, List.mem_singleton]
    exact or_comm

@[simp] theorem edges_addNode (g : EdgeGraph α β) (v : α) : (g.addNode v).edges = g.edges := by
  by_cases h : v ∈ g.nodes <;> simp [addNode, h]

def addEdge (g : EdgeGraph α β) (u v : α) (label : β) : EdgeGraph α β :=
  ⟨((g.addNode u).addNode v).nodes, g.edges.insert (u, v) label,
    ((g.addNode u).addNode v).nodup_nodes, by
    intro e he
    simp only [mem_nodes_addNode]
    rcases OrdDict.mem_keys_insert.mp he with rfl | he
    · simp
    · exact ⟨Or.inr (Or.inr (g.ends_mem e he).1), Or.inr (Or.inr (g.ends_mem e he).2)⟩⟩

theorem mem_nodes_addEdge {g : EdgeGraph α β} {u v w : α} {label : β} :
    w ∈ (g.addEdge u v label).nodes ↔ w = v ∨ w = u ∨ w ∈ g.nodes := by
  change w ∈ ((g.addNode u).addNode v).nodes ↔ _
  rw [mem_nodes_addNode, mem_nodes_addNode]

def Edge (g : EdgeGraph α β) (u v : α) : Prop := (u, v) ∈ g.edges.keys

def label? (g : EdgeGraph α β) (u v : α) : Option β := g.edges.get? (u, v)

/-- Predecessors in the order in which their edges were added. -/
def predecessors (g : EdgeGraph α β) (v : α) : List α :=
  (g.edges.keys.filter fun e => e.2 = v).map Prod.fst

def successors (g : EdgeGraph α β) (u : α) : List α :=
  (g.edges.keys.filter fun e => e.1 = u).map Prod.snd

theorem mem_predecessors {g : EdgeGraph α β} {u v : α} : u ∈ g.predecessors v ↔ g.Edge u v := by
  simp [predecessors, Edge]

theorem mem_successors {g : EdgeGraph α β} {u v : α} : v ∈ g.successors u ↔ g.Edge u v := by
  simp [successors, Edge]

theorem nodup_successors (g : EdgeGraph α β) (u : α) : (g.successors u).Nodup := by
  apply List.Nodup.map_on
  · intro e he e' he' h
    simp only [List.mem_filter, decide_eq_true_eq] at he he'
    exact Prod.ext (he.2.trans he'.2.symm) h
  · exact g.edges.nodup_keys.filter _

def Acyclic (g : EdgeGraph α β) : Prop := ∀ v, ¬ Relation.TransGen g.Edge v v

/-- Every node is listed once, after all its predecessors. -/
structure IsTopologicalOrder (g : EdgeGraph α β) (order : List α) : Prop where
  nodup : order.Nodup
  mem_iff : ∀ v, v ∈ order ↔ v ∈ g.nodes
  pred_mem : ∀ pre v post, order = pre ++ v :: post → ∀ u, g.Edge u v → u ∈ pre

theorem IsTopologicalOrder.ancestor_mem {g : EdgeGraph α β} {order : List α} (h : g.IsTopologicalOrder order)
    {pre post : List α} {u v : α} (he : order = pre ++ v :: post) (huv : Relation.TransGen g.Edge u v) : u ∈ pre := by
  induction huv generalizing pre post with
  | single hedge => exact h.pred_mem pre _ post he _ hedge
  | @tail w v _ hedge ih =>
    obtain ⟨x, y, rfl⟩ := List.append_of_mem (h.pred_mem pre v post he w hedge)
    have hw : order = x ++ w :: (y ++ v :: post) := by
      rw [he, List.append_assoc]
      rfl
    exact List.mem_append_left _ (ih hw)

theorem IsTopologicalOrder.acyclic {g : EdgeGraph α β} {order : List α} (h : g.IsTopologicalOrder order) :
    g.Acyclic := by
  intro v hv
  obtain ⟨u, -, hu⟩ := Relation.TransGen.tail'_iff.mp hv
  obtain ⟨pre, post, he⟩ := List.append_of_mem ((h.mem_iff v).mpr (g.ends_mem _ hu).2)
  have hpre := h.ancestor_mem he hv
  exact (List.nodup_append.mp (he ▸ h.nodup)).2.2 v hpre v List.mem_cons_self rfl

/-- The successors of `u` that wait for nothing outside `done`. -/
def released (g : EdgeGraph α β) (done : List α) (u : α) : List α :=
  (g.successors u).filter fun v => (g.predecessors v).all fun w => w ∈ done

/-- Works off a queue of released nodes; generations come out one after another. -/
def sortLoop (g : EdgeGraph α β) : Nat → List α → List α → List α
  | 0, _, done => done
  | _ + 1, [], done => done
  | n + 1, u :: queue, done =>
    sortLoop g n (queue ++ g.released (done ++ [u]) u) (done ++ [u])

def sources (g : EdgeGraph α β) : List α := g.nodes.filter fun v => (g.predecessors v).isEmpty

def sortOrder (g : EdgeGraph α β) : List α := g.sortLoop g.nodes.length g.sources []

/-- `none` when a cycle keeps some node from ever being released. -/
def topologicalSort (g : EdgeGraph α β) : Option (List α) :=
  if g.sortOrder.length = g.nodes.length then some g.sortOrder else none

/-- The state of the sort: `done` is closed under predecessors in its own
order, and the queue holds exactly the further nodes whose predecessors are done. -/
structure SortInv (g : EdgeGraph α β) (queue done : List α) : Prop where
  nodup : (done ++ queue).Nodup
  mem_nodes : ∀ v ∈ done ++ queue, v ∈ g.nodes
  queue_pred : ∀ v ∈ queue, ∀ u, g.Edge u v → u ∈ done
  done_pred : ∀ pre v post, done = pre ++ v :: post → ∀ u, g.Edge u v → u ∈ pre
  ready_mem : ∀ v ∈ g.nodes, (∀ u, g.Edge u v → u ∈ done) → v ∈ done ++ queue

theorem sortInv_init (g : EdgeGraph α β) : g.SortInv g.sources [] where
  nodup := by
    change g.sources.Nodup
    exact g.nodup_nodes.filter _
  mem_nodes v hv := (List.mem_filter.mp (show v ∈ g.sources from hv)).1
  queue_pred v hv u hu := by
    have he := (List.mem_filter.mp hv).2
    rw [List.isEmpty_iff] at he
    exact absurd (mem_predecessors.mpr hu) (by simp [he])
  done_pred := by simp
  ready_mem v hv h := by
    have he : g.predecessors v = [] :=
      List.eq_nil_iff_forall_not_mem.mpr fun u hu => by simpa using h u (mem_predecessors.mp hu)
    simp [sources, hv, he]

theorem mem_released {g : EdgeGraph α β} {done : List α} {u v : α} :
    v ∈ g.released done u ↔ g.Edge u v ∧ ∀ w, g.Edge w v → w ∈ done := by
  simp [released, mem_successors, mem_predecessors]

omit [DecidableEq α] in
theorem pred_mem_snoc {E : α → α → Prop} {done : List α} {u : α}
    (h : ∀ pre v post, done = pre ++ v :: post → ∀ w, E w v → w ∈ pre)
    (hu : ∀ w, E w u → w ∈ done) :
    ∀ pre v post, done ++ [u] = pre ++ v :: post → ∀ w, E w v → w ∈ pre := by
  intro pre v post he w hw
  rcases List.eq_nil_or_concat post with rfl | ⟨post, x, rfl⟩
  · obtain ⟨h₁, h₂⟩ := List.append_inj' he rfl
    obtain rfl : u = v := by simpa using h₂
    exact h₁ ▸ hu w hw
  · have he' : done ++ [u] = (pre ++ v :: post) ++ [x] := by simpa using he
    exact h pre v post (List.append_inj' he' rfl).1 w hw

theorem SortInv.step {g : EdgeGraph α β} {u : α} {queue done : List α}
    (h : g.SortInv (u :: queue) done) :
    g.SortInv (queue ++ g.released (done ++ [u]) u) (done ++ [u]) := by
  have hu : ∀ w, g.Edge w u → w ∈ done := h.queue_pred u (by simp)
  have hnot : u ∉ done := fun hd =>
    (List.nodup_append.mp h.nodup).2.2 u hd u (by simp) rfl
  have hnd : (done ++ [u] ++ queue).Nodup := by simpa using h.nodup
  -- a released node has `u` as a predecessor, so it was neither done nor queued
  have hfresh : ∀ v ∈ g.released (done ++ [u]) u, v ∉ done ++ [u] ++ queue := by
    intro v hv hmem
    have he := (mem_released.mp hv).1
    simp only [List.append_assoc, List.singleton_append, List.mem_append, List.mem_cons] at hmem
    rcases hmem with hd | rfl | hq
    · obtain ⟨pre, post, hs⟩ := List.append_of_mem hd
      exact hnot (hs ▸ List.mem_append_left _ (h.done_pred pre v post hs u he))
    · exact hnot (hu v he)
    · exact hnot (h.queue_pred v (List.mem_cons_of_mem _ hq) u he)
  constructor
  · rw [← List.append_assoc, List.nodup_append]
    refine ⟨hnd, (g.nodup_successors u).filter _, ?_⟩
    rintro a ha b hb rfl
    exact hfresh a hb ha
  · intro v hv
    rw [← List.append_assoc, List.mem_append] at hv
    rcases hv with hv | hv
    · exact h.mem_nodes v (by simpa using hv)
    · exact (g.ends_mem _ (mem_released.mp hv).1).2
  · intro v hv w hw
    rcases List.mem_append.mp hv with hv | hv
    · exact List.mem_append_left _ (h.queue_pred v (List.mem_cons_of_mem _ hv) w hw)
    · exact (mem_released.mp hv).2 w hw
  · exact pred_mem_snoc h.done_pred hu
  · intro v hv hp
    by_cases hold : ∀ w, g.Edge w v → w ∈ done
    · have hm := h.ready_mem v hv hold
      rw [← List.append_assoc]
      exact List.mem_append_left _ (by simpa using hm)
    · simp only [not_forall] at hold
      obtain ⟨w, hw, hwd⟩ := hold
      obtain rfl : w = u := by simpa [hwd] using hp w hw
      simp [mem_released.mpr ⟨hw, hp⟩]

theorem SortInv.length_le {g : EdgeGraph α β} {queue done : List α} (h : g.SortInv queue done) :
    done.length + queue.length ≤ g.nodes.length := by
  have hh := (h.nodup.subperm h.mem_nodes).length_le
  simpa using hh

theorem SortInv.finish {g : EdgeGraph α β} {n : Nat} {queue done : List α}
    (h : g.SortInv queue done) (hn : g.nodes.length ≤ done.length + n) :
    g.SortInv [] (g.sortLoop n queue done) := by
  induction n generalizing queue done with
  | zero =>
    have hl := h.length_le
    obtain rfl : queue = [] := List.length_eq_zero_iff.mp (by omega)
    exact h
  | succ n ih =>
    cases queue with
    | nil => exact h
    | cons u queue =>
      exact ih h.step (by simp only [List.length_append, List.length_singleton]; omega)

theorem sortOrder_inv (g : EdgeGraph α β) : g.SortInv [] g.sortOrder :=
  (sortInv_init g).finish (by simp)

theorem topologicalSort_sound {g : EdgeGraph α β} {order : List α}
    (h : g.topologicalSort = some order) : g.IsTopologicalOrder order := by
  have hi := sortOrder_inv g
  simp only [topologicalSort, Option.ite_none_right_eq_some, Option.some.injEq] at h
  obtain ⟨hl, rfl⟩ := h
  have hnd : g.sortOrder.Nodup := by simpa using hi.nodup
  have hsub : g.sortOrder ⊆ g.nodes := fun v hv => hi.mem_nodes v (by simpa using hv)
  have hp := (hnd.subperm hsub).perm_of_length_le hl.ge
  exact ⟨hnd, fun v => hp.mem_iff, hi.done_pred⟩

theorem acyclic_induction {g : EdgeGraph α β} (hg : g.Acyclic) {P : α → Prop}
    (h : ∀ v ∈ g.nodes, (∀ u, g.Edge u v → P u) → P v) : ∀ v ∈ g.nodes, P v := by
  let r : {v // v ∈ g.nodes} → {v // v ∈ g.nodes} → Prop :=
    fun u v => Relation.TransGen g.Edge u.1 v.1
  have : IsTrans _ r := ⟨fun _ _ _ hab hbc => Relation.TransGen.trans hab hbc⟩
  have : Std.Irrefl r := ⟨fun v hv => hg v.1 hv⟩
  have : Finite {v // v ∈ g.nodes} := Finite.of_fintype _
  have hwf : WellFounded r := Finite.wellFounded_of_trans_of_irrefl r
  intro v hv
  have key : ∀ w : {v // v ∈ g.nodes}, P w.1 := by
    intro w
    induction w using hwf.induction with
    | _ w ih => exact h w.1 w.2 fun u hu => ih ⟨u, (g.ends_mem _ hu).1⟩ (.single hu)
  exact key ⟨v, hv⟩

theorem topologicalSort_complete {g : EdgeGraph α β} (hg : g.Acyclic) :
    ∃ order, g.topologicalSort = some order := by
  have hi := sortOrder_inv g
  have hall : ∀ v ∈ g.nodes, v ∈ g.sortOrder :=
    acyclic_induction hg fun v hv hp => by simpa using hi.ready_mem v hv hp
  have hge := (g.nodup_nodes.subperm hall).length_le
  have hle := hi.length_le
  refine ⟨_, if_pos ?_⟩
  simp only [List.length_nil] at hle
  omega

section Congr

variable {γ : Type} {g : EdgeGraph α β} {g' : EdgeGraph α γ}

theorem edge_congr (hs : ∀ u, g.successors u = g'.successors u) (u v : α) : g.Edge u v ↔ g'.Edge u v := by
  rw [← mem_successors, ← mem_successors, hs]

theorem released_congr (hs : ∀ u, g.successors u = g'.successors u) (done : List α) (u : α) :
    g.released done u = g'.released done u := by
  rw [released, released, hs]
  apply List.filter_congr
  intro v _
  rw [Bool.eq_iff_iff]
  simp only [List.all_eq_true, mem_predecessors, edge_congr hs]

theorem sources_congr (hn : g.nodes = g'.nodes) (hs : ∀ u, g.successors u = g'.successors u) :
    g.sources = g'.sources := by
  rw [sources, sources, hn]
  apply List.filter_congr
  intro v _
  rw [Bool.eq_iff_iff]
  simp only [List.isEmpty_iff, List.eq_nil_iff_forall_not_mem, mem_predecessors, edge_congr hs]

theorem sortLoop_congr (hs : ∀ u, g.successors u = g'.successors u) (n : Nat) (queue done : List α) :
    g.sortLoop n queue done = g'.sortLoop n queue done := by
  induction n generalizing queue done with
  | zero => rfl
  | succ n ih =>
    cases queue with
    | nil => rfl
    | cons u queue => rw [sortLoop, sortLoop, released_congr hs, ih]

/-- The sort reads the nodes and, node by node, the order of the successors. -/
theorem topologicalSort_congr (hn : g.nodes = g'.nodes) (hs : ∀ u, g.successors u = g'.successors u) :
    g.topologicalSort = g'.topologicalSort := by
  have horder : g.sortOrder = g'.sortOrder := by
    rw [sortOrder, sortOrder, hn, sources_congr hn hs, sortLoop_congr hs]
  rw [topologicalSort, topologicalSort, horder, hn]

end Congr

end EdgeGraph
