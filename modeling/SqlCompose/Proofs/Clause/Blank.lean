import SqlCompose.Proofs.Clause.Statement

/-! Clauses with the values of their parameters put out of sight, by which no operation decides. -/
namespace SqlCompose

/-- The parameter with one and the same value for all. -/
def Param.blank (p : Param) : Param := .ofValue p.name (.bool false)

/-- One and the same value for all. -/
def Typed.blank (_ : Typed) : Typed := ⟨.bool, false⟩

@[simp] theorem Param.name_blank (p : Param) : p.blank.name = p.name := rfl

@[simp] theorem Param.blank_blank (p : Param) : p.blank.blank = p.blank := rfl

@[simp] theorem Typed.blank_toParam (v : Typed) (name : String) :
    (v.toParam name).blank = v.blank.toParam name := rfl

@[simp] theorem Param.map_name_blank (ps : List Param) :
    (ps.map Param.blank).map Param.name = ps.map Param.name := by
  simp [Function.comp_def]

namespace Predicate

def blank : Predicate → Predicate
  | .compare column op p => .compare column op p.blank
  | .between negated column low high => .between negated column low.blank high.blank
  | .member negated column key ps => .member negated column key (ps.map Param.blank)

@[simp] theorem key_blank (p : Predicate) : p.blank.key = p.key := by
  cases p <;> rfl

@[simp] theorem text_blank (p : Predicate) : p.blank.text = p.text := by
  cases p with
  | member negated column key ps => simp only [blank, text, Param.map_name_blank]
  | _ => rfl

@[simp] theorem params_blank (p : Predicate) : p.blank.params = p.params.map Param.blank := by
  cases p <;> rfl

@[simp] theorem isVacuous_blank (p : Predicate) : p.blank.isVacuous = p.isVacuous := by
  simp [isVacuous]

end Predicate

namespace Filter

/-- One and the same text for all that are sought; nothing is sought by the empty one. -/
def sought (s : String) : String := if s.isEmpty then "" else "?"

/-- The filter with one and the same value in the place of every value that is present. -/
def blank : Filter → Filter
  | .compare column op name value => .compare column op name (value.map Typed.blank)
  | .between negated column lowName low highName high =>
    .between negated column lowName (low.map Typed.blank) highName (high.map Typed.blank)
  | .member negated column name values =>
    .member negated column name (values.map fun vs => vs.map Typed.blank)
  | .pattern negated anchor column name value =>
    .pattern negated anchor column name (value.map sought)

theorem blank_numbered (name : String) (n : Nat) (vs : List Typed) :
    (numbered name n vs).map Param.blank = numbered name n (vs.map Typed.blank) := by
  induction vs generalizing n with
  | nil => rfl
  | cons v vs ih => simp [numbered, ih]

theorem filter_sought (value : Option String) :
    ((value.map sought).filter fun s => !s.isEmpty) =
      (value.filter fun s => !s.isEmpty).map fun _ => "?" := by
  cases value with
  | none => rfl
  | some s =>
    by_cases hs : s = ""
    · subst hs
      rfl
    · simp [hs, sought, Option.filter]

/-- Which condition a filter asks for does not depend on the values, only on which of them there
are. -/
theorem blank_predicate? (f : Filter) :
    f.predicate?.map Predicate.blank = f.blank.predicate?.map Predicate.blank := by
  cases f with
  | compare column op name value => cases value <;> rfl
  | between negated column lowName low highName high => cases low <;> cases high <;> rfl
  | member negated column name values =>
    cases values with
    | none => rfl
    | some vs =>
      cases vs with
      | nil => rfl
      | cons v vs =>
        simp only [blank, predicate?, Option.map_some, Predicate.blank, blank_numbered,
          List.map_cons, List.map_map]
        rfl
  | pattern negated anchor column name value =>
    rw [blank, predicate?, predicate?, filter_sought]
    simp only [Option.map_map]
    rfl

end Filter

namespace Clause

def blank (c : Clause) : Clause := { c with params := c.params.map Param.blank }

@[simp] theorem expressions_blank (c : Clause) : c.blank.expressions = c.expressions := rfl

@[simp] theorem format_blank (c : Clause) : c.blank.format = c.format := rfl

@[simp] theorem sql_blank (c : Clause) : c.blank.sql = c.sql := rfl

@[simp] theorem paramList_blank (c : Clause) :
    c.blank.paramList = c.paramList.map Param.blank := rfl

@[simp] theorem paramCount_blank (c : Clause) : c.blank.paramCount = c.paramCount := by
  simp [paramCount, blank, KeyedSeq.map, KeyedSeq.length]

@[simp] theorem blank_blank (c : Clause) : c.blank.blank = c.blank := by
  simp [blank, KeyedSeq.map, Function.comp_def]

@[simp] theorem allNamed_map_blank (ps : List Param) :
    allNamed (ps.map Param.blank) = allNamed ps := by
  simp [allNamed, Function.comp_def]

theorem blank_add (c : Clause) (text : String) : (c.add text).blank = c.blank.add text := by
  rw [add, add]
  split <;> rfl

theorem blank_addAll (c : Clause) (texts : List String) :
    (c.addAll texts).blank = c.blank.addAll texts :=
  (List.foldl_hom blank fun c text => (blank_add c text).symm).symm

/-- A clause made from nothing has no values to put out of sight. -/
theorem blank_origin (o : Origin) : o.clause.blank = o.clause := by
  cases o with
  | ofText text => exact blank_add empty text
  | selectList columns => exact blank_addAll (ofFormat _) columns
  | groupByList columns => exact blank_addAll (ofFormat _) columns
  | orderByList columns => exact blank_addAll (ofFormat _) columns
  | insertColumns columns => exact blank_addAll (ofFormat _) columns
  | insertInto table columns => exact blank_add (ofFormat _) _
  | _ => rfl

theorem blank_addKeyed (c : Clause) (key text : String) (overwrite : Bool) :
    blank <$> c.addKeyed key text overwrite = c.blank.addKeyed key text overwrite := by
  ext
  · rw [Traced.value_map, value_addKeyed, value_addKeyed]
    split <;> rfl
  · rw [Traced.events_map, events_addKeyed, events_addKeyed]
    rfl

theorem blank_insertParam (c : Clause) (p : Param) :
    blank <$> c.insertParam p = c.blank.insertParam p.blank := by
  ext
  · rw [Traced.value_map, value_insertParam, value_insertParam]
    simp [blank, KeyedSeq.map_insert]
  · rw [Traced.events_map, events_insertParam, events_insertParam]
    rfl

theorem blank_insertParams (c : Clause) (ps : List Param) :
    blank <$> c.insertParams ps = c.blank.insertParams (ps.map Param.blank) :=
  Traced.map_foldlM blank_insertParam c ps

theorem blank_addClause (c other : Clause) :
    blank <$> c.addClause other = c.blank.addClause other.blank := by
  rw [addClause, blank_insertParams, blank_add]
  rfl

theorem blank_addKeyedClause (c : Clause) (key : String) (other : Clause) (overwrite : Bool) :
    blank <$> c.addKeyedClause key other overwrite =
      c.blank.addKeyedClause key other.blank overwrite := by
  rw [addKeyedClause, addKeyedClause, expressions_blank]
  split
  · rw [map_bind, sql_blank, ← blank_addKeyed, bind_map_left]
    exact bind_congr fun d => blank_insertParams d other.paramList
  · rfl

theorem blank_statement (cs : List Clause) :
    blank <$> statement cs = statement (cs.map blank) :=
  Traced.map_foldlM blank_addClause empty cs

theorem blank_addParams (c : Clause) (ps : List Param) :
    (c.addParams ps).map blank = c.blank.addParams (ps.map Param.blank) := by
  rw [addParams, addParams, allNamed_map_blank]
  split
  · exact Outcome.map_ofTraced_of_map_eq (blank_insertParams c ps)
  · rfl

theorem blank_addKeyedWithParams (c : Clause) (key text : String) (ps : List Param)
    (overwrite : Bool) :
    (c.addKeyedWithParams key text ps overwrite).map blank =
      c.blank.addKeyedWithParams key text (ps.map Param.blank) overwrite := by
  rw [addKeyedWithParams, addKeyedWithParams, allNamed_map_blank, expressions_blank]
  split
  · rfl
  · split
    · exact Outcome.map_ofTraced_of_map_eq (blank_insertParams _ ps)
    · rfl

theorem blank_addPredicate (c : Clause) (p : Predicate) :
    (c.addPredicate p).map blank = c.blank.addPredicate p.blank := by
  rw [addPredicate, addPredicate, Predicate.isVacuous_blank]
  split
  · rfl
  · rw [blank_addKeyedWithParams, Predicate.key_blank, Predicate.text_blank, Predicate.params_blank]

/-- A sought text leaves its mark on the value of the pattern, which is why the outcomes agree only
when the values are put out of sight. -/
theorem blank_addFilter (c : Clause) (f : Filter) :
    (c.addFilter f).map blank = (c.blank.addFilter f.blank).map blank := by
  have hf := f.blank_predicate?
  rw [addFilter, addFilter]
  cases hp : f.predicate? with
  | none =>
    rw [hp] at hf
    rw [Option.map_eq_none_iff.mp hf.symm]
    simp
  | some p =>
    rw [hp] at hf
    obtain ⟨q, hq, hpq⟩ := Option.map_eq_some_iff.mp hf.symm
    rw [hq]
    simp only
    rw [blank_addPredicate, blank_addPredicate, hpq, blank_blank]

/-- The operation with one and the same value in the place of every value. -/
def Op.blank {ρ : Type} : Op ρ → Op ρ
  | .addKeyedWithParams key text ps overwrite =>
    .addKeyedWithParams key text (ps.map Param.blank) overwrite
  | .addParam p => .addParam p.blank
  | .addParams ps => .addParams (ps.map Param.blank)
  | .addPredicate p => .addPredicate p.blank
  | .addFilter f => .addFilter f.blank
  | op => op

theorem Op.blank_map {ρ σ τ : Type} (f : ρ → σ) (g : σ → τ) (op : Op ρ) :
    (op.map f).blank.map g = op.blank.map (g ∘ f) := by
  cases op <;> rfl

/-- The values may be taken away before an operation or after it. -/
theorem blank_apply (c : Clause) (op : Op) :
    (c.apply op).map blank = (c.blank.apply (op.blank.map blank)).map blank := by
  have hexact : ∀ {o o' : Outcome Clause}, o.map blank = o' → o.map blank = o'.map blank :=
    Outcome.map_eq_map_of_map_eq blank_blank
  cases op with
  | add text => exact hexact (congrArg Outcome.accept (blank_add c text))
  | addKeyed key text overwrite =>
    exact hexact (Outcome.map_ofTraced_of_map_eq (blank_addKeyed c key text overwrite))
  | addKeyedWithParams key text ps overwrite =>
    exact hexact (blank_addKeyedWithParams c key text ps overwrite)
  | addParam p => exact hexact (blank_addParams c [p])
  | addParams ps => exact hexact (blank_addParams c ps)
  | addClause other => exact hexact (Outcome.map_ofTraced_of_map_eq (blank_addClause c other))
  | addKeyedClause key other overwrite =>
    exact hexact (Outcome.map_ofTraced_of_map_eq (blank_addKeyedClause c key other overwrite))
  | addPredicate p => exact hexact (blank_addPredicate c p)
  | addFilter f => exact blank_addFilter c f
  | decorate s => exact hexact rfl
  | reformat f => exact hexact rfl

end Clause

end SqlCompose
