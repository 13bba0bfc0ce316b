import Planner.Lib.EdgeGraph

/-! Dictionaries and graphs under an injective renaming of their keys and
nodes. What they answer is renamed with them, in the same order. -/

namespace OrdDict

variable {α β γ δ : Type} {f : α → γ} {g : β → δ}

/-- `d'` is `d` with its keys and its values renamed, entry by entry. -/
def Renames (f : α → γ) (g : β → δ) (d : OrdDict α β) (d' : OrdDict γ δ) : Prop :=
  d'.entries = d.entries.map (Prod.map f g)

theorem Renames.empty : Renames f g (empty : OrdDict α β) OrdDict.empty := rfl

theorem Renames.keys {d : OrdDict α β} {d' : OrdDict γ δ} (h : Renames f g d d') : d'.keys = d.keys.map f := by
  rw [OrdDict.keys, OrdDict.keys, h, List.map_map, List.map_map]
  rfl

theorem Renames.values {d : OrdDict α β} {d' : OrdDict γ δ} (h : Renames f g d d') : d'.values = d.values.map g := by
  rw [OrdDict.values, OrdDict.values, h, List.map_map, List.map_map]
  rfl

variable [DecidableEq α] [DecidableEq γ] {d : OrdDict α β} {d' : OrdDict γ δ}

theorem lookup_map_injective (hf : f.Injective) (l : List (α × β)) (k : α) :
    (l.map (Prod.map f g)).lookup (f k) = (l.lookup k).map g := by
  induction l with
  | nil => rfl
  | cons e l ih =>
    obtain ⟨k', v⟩ := e
    rw [List.map_cons, Prod.map_apply, List.lookup_cons, List.lookup_cons]
    by_cases h : k = k'
    · rw [h, beq_self_eq_true, beq_self_eq_true]
      rfl
    · rw [beq_false_of_ne h, beq_false_of_ne (hf.ne h)]
      exact ih

theorem Renames.get? (h : Renames f g d d') (hf : f.Injective) (k : α) : d'.get? (f k) = (d.get? k).map g := by
  rw [OrdDict.get?, OrdDict.get?, h, lookup_map_injective hf]

theorem Renames.contains (h : Renames f g d d') (hf : f.Injective) (k : α) : d'.contains (f k) = d.contains k := by
  rw [OrdDict.contains, OrdDict.contains, h.get? hf, Option.isSome_map]

theorem Renames.getD (h : Renames f g d d') (hf : f.Injective) (k : α) (v : β) :
    d'.getD (f k) (g v) = g (d.getD k v) := by
  rw [OrdDict.getD, OrdDict.getD, h.get? hf, Option.getD_map]

theorem Renames.insert (h : Renames f g d d') (hf : f.Injective) (k : α) (v : β) :
    Renames f g (d.insert k v) (d'.insert (f k) (g v)) := by
  by_cases hk : k ∈ d.keys
  · -- both keep the place of the key
    have hsome := mem_keys.mp hk
    have hsome' : (d'.get? (f k)).isSome := by rwa [h.get? hf, Option.isSome_map]
    have hinsert : d.insert k v = d.modify k fun _ => v := dif_pos hsome
    have hinsert' : d'.insert (f k) (g v) = d'.modify (f k) fun _ => g v := dif_pos hsome'
    rw [hinsert, hinsert']
    have hentries : d'.entries = d.entries.map (Prod.map f g) := h
    simp only [Renames, modify, mapEntries, hentries, List.map_map]
    refine List.map_congr_left fun e _ => ?_
    obtain ⟨k', w⟩ := e
    by_cases he : k' = k
    · simp [he]
    · simp [he, hf.ne he]
  · have hk' : f k ∉ d'.keys := by
      rw [h.keys]
      intro hm
      obtain ⟨k', hm', he⟩ := List.mem_map.mp hm
      exact hk (hf he ▸ hm')
    rw [Renames, entries_insert_of_not_mem hk, entries_insert_of_not_mem hk', h, List.map_append]
    rfl

theorem Renames.insertAll (h : Renames f g d d') (hf : f.Injective) (l : List (α × β)) :
    Renames f g (d.insertAll l) (d'.insertAll (l.map (Prod.map f g))) := by
  induction l generalizing d d' with
  | nil => exact h
  | cons e l ih => exact ih (h.insert hf e.1 e.2)

theorem Renames.ofList (hf : f.Injective) (l : List (α × β)) :
    Renames f g (ofList l) (ofList (l.map (Prod.map f g))) :=
  Renames.empty.insertAll hf l

end OrdDict

namespace EdgeGraph

variable {α β γ : Type} [DecidableEq α] [DecidableEq γ] {f : α → γ} {g : EdgeGraph α β} {g' : EdgeGraph γ β}

/-- `g'` is `g` with its nodes renamed, in the same order and with the same labels. -/
structure Renames (f : α → γ) (g : EdgeGraph α β) (g' : EdgeGraph γ β) : Prop where
  nodes : g'.nodes = g.nodes.map f
  edges : OrdDict.Renames (Prod.map f f) id g.edges g'.edges

theorem Renames.empty : Renames f (empty : EdgeGraph α β) EdgeGraph.empty := ⟨rfl, OrdDict.Renames.empty⟩

theorem Renames.addNode (h : Renames f g g') (hf : f.Injective) (v : α) : Renames f (g.addNode v) (g'.addNode (f v)) := by
  refine ⟨?_, by simpa only [edges_addNode] using h.edges⟩
  unfold EdgeGraph.addNode
  by_cases hv : v ∈ g.nodes
  · have hv' : f v ∈ g'.nodes := h.nodes ▸ List.mem_map_of_mem hv
    rw [dif_pos hv, dif_pos hv']
    exact h.nodes
  · have hv' : f v ∉ g'.nodes := by rwa [h.nodes, List.mem_map_of_injective hf]
    rw [dif_neg hv, dif_neg hv']
    simp only [h.nodes, List.map_append, List.map_cons, List.map_nil]

theorem Renames.addEdge (h : Renames f g g') (hf : f.Injective) (u v : α) (label : β) :
    Renames f (g.addEdge u v label) (g'.addEdge (f u) (f v) label) :=
  ⟨((h.addNode hf u).addNode hf v).nodes, h.edges.insert (hf.prodMap hf) (u, v) label⟩

theorem Renames.label? (h : Renames f g g') (hf : f.Injective) (u v : α) : g'.label? (f u) (f v) = g.label? u v := by
  have hget := h.edges.get? (hf.prodMap hf) (u, v)
  rwa [Option.map_id] at hget

theorem Renames.predecessors (h : Renames f g g') (hf : f.Injective) (v : α) :
    g'.predecessors (f v) = (g.predecessors v).map f := by
  simp only [EdgeGraph.predecessors, h.edges.keys, List.filter_map, List.map_map, Function.comp_def,
    Prod.map_fst, Prod.map_snd, hf.eq_iff]

theorem Renames.successors (h : Renames f g g') (hf : f.Injective) (u : α) :
    g'.successors (f u) = (g.successors u).map f := by
  simp only [EdgeGraph.successors, h.edges.keys, List.filter_map, List.map_map, Function.comp_def,
    Prod.map_fst, Prod.map_snd, hf.eq_iff]

theorem Renames.released (h : Renames f g g') (hf : f.Injective) (done : List α) (u : α) :
    g'.released (done.map f) (f u) = (g.released done u).map f := by
  simp only [EdgeGraph.released, h.successors hf, List.filter_map]
  refine congrArg (List.map f) (List.filter_congr fun v _ => ?_)
  simp only [Function.comp_apply, h.predecessors hf, List.all_map, List.mem_map_of_injective hf, Function.comp_def]

theorem Renames.sources (h : Renames f g g') (hf : f.Injective) : g'.sources = g.sources.map f := by
  simp only [EdgeGraph.sources, h.nodes, List.filter_map]
  refine congrArg (List.map f) (List.filter_congr fun v _ => ?_)
  rw [Function.comp_apply, h.predecessors hf, List.isEmpty_map]

theorem Renames.sortLoop (h : Renames f g g') (hf : f.Injective) (n : Nat) (queue done : List α) :
    g'.sortLoop n (queue.map f) (done.map f) = (g.sortLoop n queue done).map f := by
  induction n generalizing queue done with
  | zero => rfl
  | succ n ih =>
    cases queue with
    | nil => rfl
    | cons u queue =>
      have hdone : done.map f ++ [f u] = (done ++ [u]).map f := by rw [List.map_append, List.map_singleton]
      rw [List.map_cons, EdgeGraph.sortLoop, EdgeGraph.sortLoop, hdone, h.released hf, ← List.map_append]
      exact ih _ _

/-- The sort never compares nodes with anything but `=`. -/
theorem Renames.topologicalSort (h : Renames f g g') (hf : f.Injective) :
    g'.topologicalSort = g.topologicalSort.map (List.map f) := by
  have hnodes : g'.nodes.length = g.nodes.length := by rw [h.nodes, List.length_map]
  have horder : g'.sortOrder = g.sortOrder.map f := by
    rw [EdgeGraph.sortOrder, EdgeGraph.sortOrder, hnodes, h.sources hf]
    exact h.sortLoop hf g.nodes.length g.sources []
  rw [EdgeGraph.topologicalSort, EdgeGraph.topologicalSort, horder, hnodes, List.length_map]
  split
  · rfl
  · rfl

end EdgeGraph
