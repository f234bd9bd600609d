import SqlCompose.Proofs.Clause.Statement

/-!
Statements made of statements, to any depth, in which only the clauses at the leaves and their order
matter.
-/
namespace SqlCompose

/-- A clause, or a statement of some compositions in order. -/
inductive Composition where
  | leaf (clause : Clause)
  | node (children : List Composition)

namespace Composition

/-- Induction on compositions, with the hypothesis for every child. -/
@[elab_as_elim, induction_eliminator]
theorem induction {motive : Composition → Prop} (leaf : ∀ c, motive (leaf c))
    (node : ∀ ts, (∀ t ∈ ts, motive t) → motive (node ts)) (t : Composition) : motive t :=
  @Composition.rec motive (fun ts => ∀ t ∈ ts, motive t) leaf node
    (fun _ h => nomatch h) (fun _ _ ht hts => List.forall_mem_cons.mpr ⟨ht, hts⟩) t

mutual

/-- The clause that a composition comes to. -/
def value : Composition → Clause
  | .leaf c => c
  | .node ts => (Clause.statement (values ts)).value

def values : List Composition → List Clause
  | [] => []
  | t :: ts => t.value :: values ts

end

mutual

/-- The clauses at the leaves, from left to right. -/
def leaves : Composition → List Clause
  | .leaf c => [c]
  | .node ts => leavesAll ts

def leavesAll : List Composition → List Clause
  | [] => []
  | t :: ts => t.leaves ++ leavesAll ts

end

theorem values_eq_map (ts : List Composition) : values ts = ts.map value := by
  induction ts with
  | nil => rfl
  | cons t ts ih => rw [values, ih, List.map_cons]

theorem leavesAll_eq_flatMap (ts : List Composition) : leavesAll ts = ts.flatMap leaves := by
  induction ts with
  | nil => rfl
  | cons t ts ih => rw [leavesAll, ih, List.flatMap_cons]

theorem value_node (ts : List Composition) :
    (node ts).value = (Clause.statement (ts.map value)).value := by
  rw [value, values_eq_map]

theorem leaves_node (ts : List Composition) : (node ts).leaves = ts.flatMap leaves := by
  rw [leaves, leavesAll_eq_flatMap]

/-- The text is that of the leaves, one behind the other. -/
theorem sql_value (t : Composition) : t.value.sql = String.join (t.leaves.map Clause.sql) := by
  induction t with
  | leaf c => simp [value, leaves]
  | node ts ih =>
    rw [value_node, Clause.sql_statement, leaves_node]
    induction ts with
    | nil => rfl
    | cons t ts ihts =>
      rw [List.forall_mem_cons] at ih
      simp only [List.map_cons, List.flatMap_cons, List.map_append, String.join_cons,
        String.join_append]
      rw [ih.1, ihts ih.2]

/-- Merging the parameters of a composition has the effect of merging those of its leaves. -/
theorem insertAll_paramList_value (t : Composition) {s : KeyedSeq String Param}
    (hs : s.KeyedBy Param.name) :
    s.insertAll Param.name t.value.paramList =
      s.insertAll Param.name (t.leaves.flatMap Clause.paramList) := by
  induction t generalizing s with
  | leaf c => simp [value, leaves]
  | node ts ih =>
    rw [value_node, Clause.paramList, Clause.params_statement,
      KeyedSeq.insertAll_toList_insertAll hs.wellKeyed, leaves_node]
    induction ts generalizing s with
    | nil => rfl
    | cons t ts ihts =>
      rw [List.forall_mem_cons] at ih
      simp only [List.map_cons, List.flatMap_cons, List.flatMap_append, KeyedSeq.insertAll_append]
      rw [ih.1 hs, ihts ih.2 (hs.insertAll _)]

theorem params_node (ts : List Composition) :
    (node ts).value.params = (Clause.statement (node ts).leaves).value.params := by
  rw [Clause.params_statement, ← insertAll_paramList_value _ (KeyedSeq.keyedBy_empty _)]
  rw [value_node, Clause.paramList, Clause.params_statement,
    KeyedSeq.insertAll_toList_insertAll KeyedSeq.wellKeyed_empty]

theorem map_value_leaf (cs : List Clause) : (cs.map leaf).map value = cs := by
  rw [List.map_map]
  exact List.map_id'' (fun _ => rfl) cs

theorem flatMap_leaves_leaf (cs : List Clause) : (cs.map leaf).flatMap leaves = cs := by
  rw [List.flatMap_map]
  exact List.flatMap_singleton' cs

theorem value_node_leaf (cs : List Clause) :
    (node (cs.map leaf)).value = (Clause.statement cs).value := by
  rw [value_node, map_value_leaf]

theorem leaves_node_leaf (cs : List Clause) : (node (cs.map leaf)).leaves = cs := by
  rw [leaves_node, flatMap_leaves_leaf]

/-- However statements are nested, the outcome is that of one statement of the leaves, in text and
in parameters; a leaf without a text still hands over its parameters. So two statements may be put
into one, or the clauses of both. -/
theorem statement_flattens :
    (∀ ts : List Composition,
      (node ts).value.sql = String.join ((node ts).leaves.map Clause.sql) ∧
        (node ts).value.params = (Clause.statement (node ts).leaves).value.params) ∧
    ∀ xs ys : List Clause,
      let nested :=
        (Clause.statement [(Clause.statement xs).value, (Clause.statement ys).value]).value
      nested.sql = (Clause.statement (xs ++ ys)).value.sql ∧
        nested.params = (Clause.statement (xs ++ ys)).value.params := by
  refine ⟨fun ts => ⟨sql_value (node ts), params_node ts⟩, fun xs ys => ?_⟩
  have hvalue : (node [node (xs.map leaf), node (ys.map leaf)]).value =
      (Clause.statement [(Clause.statement xs).value, (Clause.statement ys).value]).value := by
    rw [value_node, List.map_cons, List.map_cons, List.map_nil, value_node_leaf, value_node_leaf]
  have hleaves : (node [node (xs.map leaf), node (ys.map leaf)]).leaves = xs ++ ys := by
    rw [leaves_node, List.flatMap_cons, List.flatMap_cons, List.flatMap_nil, leaves_node_leaf,
      leaves_node_leaf, List.append_nil]
  constructor
  · rw [← hvalue, sql_value, hleaves, Clause.sql_statement]
  · rw [← hvalue, params_node, hleaves]

end Composition

end SqlCompose
