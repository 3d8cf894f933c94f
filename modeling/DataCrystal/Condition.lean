import DataCrystal.Errors

/-!
# Conditions

The condition trees a query is built from, and their evaluation on one row.

A row is anything that has a value under a field name. The live store
evaluates conditions on hydrated entities, the decode-level reads on raw
records and a snapshot on frozen views, so a condition is generic in what a
reference is, like the values it compares.

Evaluation follows the language: `all` and `any` stop at the first part that
decides, an ordering comparison with `None` on either side is false, and a
comparison between values that are not mutually orderable raises.

## Main definitions

* `OrdOp`, `Test`: The operators of a leaf predicate, with their operand.
* `Cond`: A condition tree.
* `matchesString`: Substring and prefix matching.
* `Test.evaluate`, `Cond.evaluate`: Evaluation on a value and on a row.
* `Cond.tests`: The leaf predicates of a tree.

## Theorems

* `evalAll_ok`, `evalAny_ok`: Evaluation of a conjunction and a disjunction
  whose parts all answer.
* `evaluate_ok`: A condition whose leaves answer answers.
-/

namespace DataCrystal

/-- The ordering operators. -/
inductive OrdOp
  | lt
  | le
  | gt
  | ge
  deriving DecidableEq, Repr

/-- The operator of a leaf predicate and its operand. Substring and prefix
    tests are only built with a string. -/
inductive Test (ρ : Type)
  | eq (value : Val ρ)
  | ne (value : Val ρ)
  | ord (op : OrdOp) (value : Val ρ)
  | isIn (values : List (Val ρ))
  | contains (needle : String)
  | startswith (needle : String)

/-- A condition tree over the fields of one class. -/
inductive Cond (ρ : Type)
  | pred (field : String) (test : Test ρ)
  | and (parts : List (Cond ρ))
  | or (parts : List (Cond ρ))
  | not (part : Cond ρ)

/-- Whether a string contains another one. -/
def containsString (needle key : String) : Bool := needle.toList <:+: key.toList

/-- Whether a string starts with another one. -/
def startsWithString (needle key : String) : Bool := needle.toList <+: key.toList

namespace Test

variable {ρ : Type} [DecidableEq ρ]

/-- `a <= b`: below, or equal where the two compare. -/
def le (a b : Val ρ) : Except ValueErr Bool := (a.pyLt b).map fun below => below || a.pyEq b

/-- An ordering comparison; `None` on either side never matches. -/
def ordered (op : OrdOp) (actual value : Val ρ) : Except ValueErr Bool :=
  match actual, value with
  | .none, _ => .ok false
  | _, .none => .ok false
  | a, v =>
    -- `a >= v` asks `v <= a`, the reflected comparison of the operand.
    match op with
    | .lt => a.pyLt v
    | .le => le a v
    | .gt => v.pyLt a
    | .ge => le v a

/-- A needle against a list field or a string field; any other type never
    matches. -/
def containsIn (needle : String) : Val ρ → Bool
  | .seq _ items => items.any fun item => (Val.scalar (.str needle)).same item
  | .scalar (.str s) => containsString needle s
  | _ => false

def startsWithIn (needle : String) : Val ρ → Bool
  | .scalar (.str s) => startsWithString needle s
  | _ => false

/-- The test on the value of its field. -/
def evaluate (t : Test ρ) (actual : Val ρ) : Except ValueErr Bool :=
  match t with
  | .eq v => .ok (actual.pyEq v)
  | .ne v => .ok (!actual.pyEq v)
  | .ord op v => ordered op actual v
  | .isIn vs => .ok (vs.any fun v => actual.same v)
  | .contains needle => .ok (containsIn needle actual)
  | .startswith needle => .ok (startsWithIn needle actual)

end Test

namespace Cond

variable {ρ : Type} [DecidableEq ρ]

/-- A condition on one row, given as the value under each field name. -/
def evaluate (row : String → Val ρ) : Cond ρ → Except ValueErr Bool
  | .pred field t => t.evaluate (row field)
  | .and parts => evalAll parts
  | .or parts => evalAny parts
  | .not part => (evaluate row part).map fun b => !b
where
  /-- `all(...)`: stops at the first part that fails. -/
  evalAll : List (Cond ρ) → Except ValueErr Bool
    | [] => .ok true
    | c :: cs =>
      match evaluate row c with
      | .ok true => evalAll cs
      | .ok false => .ok false
      | .error e => .error e
  /-- `any(...)`: stops at the first part that holds. -/
  evalAny : List (Cond ρ) → Except ValueErr Bool
    | [] => .ok false
    | c :: cs =>
      match evaluate row c with
      | .ok true => .ok true
      | .ok false => evalAny cs
      | .error e => .error e

/-- The leaf predicates of a tree. -/
def tests : Cond ρ → List (String × Test ρ)
  | .pred field t => [(field, t)]
  | .and parts => testsAll parts
  | .or parts => testsAll parts
  | .not part => tests part
where
  testsAll : List (Cond ρ) → List (String × Test ρ)
    | [] => []
    | c :: cs => tests c ++ testsAll cs

/-- Every leaf predicate answers on the row. -/
def Answers (row : String → Val ρ) (c : Cond ρ) : Prop :=
  ∀ e ∈ c.tests, ∃ b, e.2.evaluate (row e.1) = .ok b

omit [DecidableEq ρ] in
theorem mem_testsAll (cs : List (Cond ρ)) (e : String × Test ρ) :
    e ∈ tests.testsAll cs ↔ ∃ c ∈ cs, e ∈ c.tests := by
  induction cs with
  | nil => simp [tests.testsAll]
  | cons c cs ih => simp [tests.testsAll, ih]

theorem answers_and {row : String → Val ρ} {parts : List (Cond ρ)} :
    Answers row (.and parts) ↔ ∀ c ∈ parts, Answers row c := by
  simp only [Answers, tests, mem_testsAll]
  exact ⟨fun h c hc e he => h e ⟨c, hc, he⟩, fun h e ⟨c, hc, he⟩ => h c hc e he⟩

theorem answers_or {row : String → Val ρ} {parts : List (Cond ρ)} :
    Answers row (.or parts) ↔ ∀ c ∈ parts, Answers row c := by
  simp only [Answers, tests, mem_testsAll]
  exact ⟨fun h c hc e he => h e ⟨c, hc, he⟩, fun h e ⟨c, hc, he⟩ => h c hc e he⟩

/-- A conjunction whose parts all answer holds when they all hold. -/
theorem evalAll_ok (row : String → Val ρ) (cs : List (Cond ρ))
    (h : ∀ c ∈ cs, ∃ b, c.evaluate row = .ok b) :
    (∃ b, evaluate.evalAll row cs = .ok b) ∧
      (evaluate.evalAll row cs = .ok true ↔ ∀ c ∈ cs, c.evaluate row = .ok true) := by
  induction cs with
  | nil => simp [evaluate.evalAll]
  | cons c cs ih =>
      rcases ih fun d hd => h d (List.mem_cons_of_mem c hd) with ⟨hans, hiff⟩
      rcases h c List.mem_cons_self with ⟨b, hb⟩
      cases b <;> simp [evaluate.evalAll, hb, hans, hiff]

/-- A disjunction whose parts all answer holds when one of them holds. -/
theorem evalAny_ok (row : String → Val ρ) (cs : List (Cond ρ))
    (h : ∀ c ∈ cs, ∃ b, c.evaluate row = .ok b) :
    (∃ b, evaluate.evalAny row cs = .ok b) ∧
      (evaluate.evalAny row cs = .ok true ↔ ∃ c ∈ cs, c.evaluate row = .ok true) := by
  induction cs with
  | nil => simp [evaluate.evalAny]
  | cons c cs ih =>
      rcases ih fun d hd => h d (List.mem_cons_of_mem c hd) with ⟨hans, hiff⟩
      rcases h c List.mem_cons_self with ⟨b, hb⟩
      cases b <;> simp [evaluate.evalAny, hb, hans, hiff]

omit [DecidableEq ρ] in
/-- Induction over condition trees, with the parts of a node by membership. -/
theorem induction_parts {P : Cond ρ → Prop} (hpred : ∀ f t, P (.pred f t))
    (hand : ∀ ps, (∀ c ∈ ps, P c) → P (.and ps)) (hor : ∀ ps, (∀ c ∈ ps, P c) → P (.or ps))
    (hnot : ∀ c, P c → P (.not c)) : ∀ c, P c :=
  @Cond.rec ρ P (fun ps => ∀ c ∈ ps, P c) hpred hand hor hnot
    (fun c hc => absurd hc List.not_mem_nil) (fun d ds hd hds c hc => by
      rcases List.mem_cons.mp hc with rfl | hc
      · exact hd
      · exact hds c hc)

/-- A condition whose leaves answer answers. -/
theorem evaluate_ok (row : String → Val ρ) (c : Cond ρ) (h : Answers row c) :
    ∃ b, c.evaluate row = .ok b := by
  induction c using induction_parts with
  | hpred f t => exact h (f, t) (by simp [tests])
  | hand ps ih =>
      have hparts := fun c hc => ih c hc (answers_and.mp h c hc)
      exact (evalAll_ok row ps hparts).1
  | hor ps ih =>
      have hparts := fun c hc => ih c hc (answers_or.mp h c hc)
      exact (evalAny_ok row ps hparts).1
  | hnot c ih =>
      rcases ih h with ⟨b, hb⟩
      exact ⟨!b, by simp [evaluate, hb, Except.map]⟩

theorem evaluate_and_iff (row : String → Val ρ) (ps : List (Cond ρ))
    (h : Answers row (.and ps)) :
    (Cond.and ps).evaluate row = .ok true ↔ ∀ c ∈ ps, c.evaluate row = .ok true :=
  (evalAll_ok row ps fun c hc => evaluate_ok row c (answers_and.mp h c hc)).2

theorem evaluate_or_iff (row : String → Val ρ) (ps : List (Cond ρ))
    (h : Answers row (.or ps)) :
    (Cond.or ps).evaluate row = .ok true ↔ ∃ c ∈ ps, c.evaluate row = .ok true :=
  (evalAny_ok row ps fun c hc => evaluate_ok row c (answers_or.mp h c hc)).2

end Cond

end DataCrystal
