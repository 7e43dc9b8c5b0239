import EntityFlow.Proofs.Generation.Grammar

/-!
# The leaves of generated code

Generation builds code from leaves: names, fields, literals, handles of the unit and placeholders.
What a leaf rests on is noted where the leaf is made, and notes stay.  So a property of leaves that
follows from what was noted holds of all leaves in the code, with respect to all that was noted in
the end.
-/

namespace EntityFlow

/-! ## Leaves -/

namespace Expr

mutual

/-- The expressions within an expression that have no parts. -/
@[simp] def leaves : Expr → List Expr
  | .binary _ left right => leaves left ++ leaves right
  | .call _ _ _ args => leavesOf args
  | .access target _ => leaves target
  | .index target key => leaves target ++ leaves key
  | .invoke _ _ args => leavesOf args
  | .invokeOn target _ _ args => leaves target ++ leavesOf args
  | .ident text => [.ident text]
  | .handle h name use => [.handle h name use]
  | .capture field => [.capture field]
  | .literal value => [.literal value]
  | .unresolved port => [.unresolved port]
  | .member m qualifier name => [.member m qualifier name]

@[simp] def leavesOf : List Expr → List Expr
  | [] => []
  | e :: rest => leaves e ++ leavesOf rest

end

theorem mem_leavesOf {x : Expr} {es : List Expr} : x ∈ leavesOf es ↔ ∃ e ∈ es, x ∈ e.leaves := by
  induction es with
  | nil => simp [leavesOf]
  | cons e rest ih => simp [leavesOf, ih]

def All (P : Expr → Prop) (e : Expr) : Prop := ∀ x ∈ e.leaves, P x

section All

variable {P : Expr → Prop} {e left right target key : Expr} {args : List Expr}

theorem forall_mem_leavesOf : (∀ x ∈ leavesOf args, P x) ↔ ∀ e ∈ args, e.All P := by
  simp only [mem_leavesOf, All]
  constructor
  · intro h e he x hx
    exact h x ⟨e, he, hx⟩
  · rintro h x ⟨e, he, hx⟩
    exact h e he x hx

theorem all_of_leaf (hleaf : e.leaves = [e]) (h : P e) : e.All P := by
  rw [All, hleaf]
  exact List.forall_mem_singleton.2 h

@[simp] theorem all_binary (op : BinaryOp) :
    (binary op left right).All P ↔ left.All P ∧ right.All P := by
  simp only [All, leaves, List.forall_mem_append]

@[simp] theorem all_call (m : MemberId) (qualifier : Option String) (name : String) :
    (call m qualifier name args).All P ↔ ∀ e ∈ args, e.All P := by
  rw [All, leaves, forall_mem_leavesOf]

@[simp] theorem all_access (name : String) : (access target name).All P ↔ target.All P := by
  simp only [All, leaves]

@[simp] theorem all_index : (index target key).All P ↔ target.All P ∧ key.All P := by
  simp only [All, leaves, List.forall_mem_append]

@[simp] theorem all_invoke (method : String) (generics : List String) :
    (invoke method generics args).All P ↔ ∀ e ∈ args, e.All P := by
  rw [All, leaves, forall_mem_leavesOf]

@[simp] theorem all_invokeOn (method : String) (generics : List String) :
    (invokeOn target method generics args).All P ↔ target.All P ∧ ∀ e ∈ args, e.All P := by
  rw [All, leaves, List.forall_mem_append, forall_mem_leavesOf]
  rfl

end All

end Expr

namespace Stmt

mutual

/-- The leaves within a statement.  Those among the fields that a new job is given come with the
node that the job is made for. -/
@[simp] def leaves : Stmt → List (Option NodeId × Expr)
  | .declare _ _ value => value.leaves.map (none, ·)
  | .assign target value => (target.leaves ++ value.leaves).map (none, ·)
  | .eval e => e.leaves.map (none, ·)
  | .ret none => []
  | .ret (some value) => value.leaves.map (none, ·)
  | .branch condition onTrue onFalse =>
      condition.leaves.map (none, ·) ++ leavesOf onTrue ++ leavesOf onFalse
  | .loop _ query body => query.leaves.map (none, ·) ++ leavesOf body
  | .construct job _ _ fields => (fields.flatMap fun f => f.2.leaves).map (some job, ·)
  | .ofNode _ body => leavesOf body

@[simp] def leavesOf : List Stmt → List (Option NodeId × Expr)
  | [] => []
  | s :: rest => leaves s ++ leavesOf rest

end

def All (P : Option NodeId → Expr → Prop) (ss : List Stmt) : Prop := ∀ u ∈ leavesOf ss, P u.1 u.2

section All

variable {P : Option NodeId → Expr → Prop} {s : Stmt} {ss ts onTrue onFalse body : List Stmt}
  {target value condition query e : Expr}

@[simp] theorem all_nil : All P [] := nofun

/-- A property of all leaves of a body is one of those of each statement. -/
theorem all_cons : All P (s :: ss) ↔ (∀ u ∈ s.leaves, P u.1 u.2) ∧ All P ss := by
  simp only [All, leavesOf, List.forall_mem_append]

theorem all_append : All P (ss ++ ts) ↔ All P ss ∧ All P ts := by
  induction ss with
  | nil => simp
  | cons s rest ih => rw [List.cons_append, all_cons, all_cons, ih, and_assoc]

theorem forall_mem_map_leaves {job : Option NodeId} :
    (∀ u ∈ e.leaves.map (job, ·), P u.1 u.2) ↔ e.All (P job) := by
  simp [Expr.All]

@[simp] theorem all_declare (type : Option String) (name : String) :
    All P [.declare type name value] ↔ value.All (P none) := by
  simp only [all_cons, leaves, forall_mem_map_leaves, all_nil, and_true]

@[simp] theorem all_assign :
    All P [.assign target value] ↔ target.All (P none) ∧ value.All (P none) := by
  simp only [all_cons, leaves, List.map_append, List.forall_mem_append, forall_mem_map_leaves,
    all_nil, and_true]

@[simp] theorem all_eval : All P [.eval e] ↔ e.All (P none) := by
  simp only [all_cons, leaves, forall_mem_map_leaves, all_nil, and_true]

@[simp] theorem all_ret {value : Option Expr} :
    All P [.ret value] ↔ ∀ e ∈ value, e.All (P none) := by
  cases value with
  | none => simp [all_cons, leaves]
  | some value => simp [all_cons, leaves, Expr.All]

@[simp] theorem all_branch : All P [.branch condition onTrue onFalse] ↔
    condition.All (P none) ∧ All P onTrue ∧ All P onFalse := by
  simp only [all_cons, leaves, List.forall_mem_append, forall_mem_map_leaves, all_nil, and_true,
    and_assoc]
  rfl

@[simp] theorem all_loop (binding : String) :
    All P [.loop binding query body] ↔ query.All (P none) ∧ All P body := by
  simp only [all_cons, leaves, List.forall_mem_append, forall_mem_map_leaves, all_nil, and_true]
  rfl

@[simp] theorem all_construct (job : NodeId) (name type : String) (fields : List (String × Expr)) :
    All P [.construct job name type fields] ↔ ∀ f ∈ fields, f.2.All (P (some job)) := by
  simp only [all_cons, leaves, all_nil, and_true, List.forall_mem_map, List.forall_mem_flatMap]
  rfl

@[simp] theorem all_ofNode (n : NodeId) : All P [.ofNode n body] ↔ All P body := by
  simp only [all_cons, leaves, all_nil, and_true]
  rfl

end All

end Stmt

/-! ## What leaves rest on -/

namespace Site

open Generation Stmt

variable {s : Site} {N : Ledger} {P : Option NodeId → Expr → Prop}

/-- `P` holds of every leaf that generation can make at the site, if what it notes is in `N`. -/
structure Grounds (s : Site) (N : Ledger) (P : Option NodeId → Expr → Prop) : Prop where
  passed : ∀ job x, P none x → P (some job) x
  ident : ∀ text, P none (.ident text)
  capture : ∀ field, P none (.capture field)
  literal : ∀ value, P none (.literal value)
  member : ∀ m qualifier name, P none (.member m qualifier name)
  handle : ∀ n h, N.Asks s.scope.method? h → P none (.handle h (s.plan.handleName h) (.node n))
  gap : ∀ port, s.Gap N port → P none (.unresolved port)
  bound : ∀ output b access, s.plan.binding? output = some b → (b.expr access).All (P none)
  fields : ∀ j ∈ s.plan.jobs, ∀ f ∈ j.fields, ∀ e, f.source = .expression e →
    e.All (P (some j.node))

namespace Grounds

variable (h : s.Grounds N P)

include h

/-- What holds of the leaves that the rules make holds of all leaves of an expression. -/
theorem all_of_makes {e : Expr} (he : s.Makes N e) : e.All (P none) := by
  have hkey : ∀ o : Option String, ∀ x ∈ o.toList.map Expr.ident, x.All (P none) := by
    intro o x hx
    obtain ⟨key, -, rfl⟩ := List.mem_map.1 hx
    exact Expr.all_of_leaf rfl (h.ident key)
  induction he with
  | ident text => exact Expr.all_of_leaf rfl (h.ident text)
  | literal value => exact Expr.all_of_leaf rfl (h.literal value)
  | captured _ => exact Expr.all_of_leaf rfl (h.capture _)
  | gap hgap => exact Expr.all_of_leaf rfl (h.gap _ hgap)
  | handle hN => exact Expr.all_of_leaf rfl (h.handle _ _ hN)
  | bound access hb he => exact he ▸ h.bound _ _ access hb
  | member _ => exact Expr.all_of_leaf rfl (h.member _ _ _)
  | binary op _ _ hleft hright => exact (Expr.all_binary op).2 ⟨hleft, hright⟩
  | call _ _ _ _ hargs => exact (Expr.all_call _ _ _).2 (List.forall_mem_append.2 ⟨hargs, hkey _⟩)
  | access name _ htarget => exact (Expr.all_access name).2 htarget
  | invoke method generics _ hargs => exact (Expr.all_invoke method generics).2 hargs
  | invokeOn method generics _ _ htarget hargs =>
    exact (Expr.all_invokeOn method generics).2 ⟨htarget, hargs⟩
  | lookup _ _ hentity =>
    exact Expr.all_index.2 ⟨Expr.all_of_leaf rfl (h.capture _), hentity⟩
  | write _ _ _ _ _ hargs =>
    exact (Expr.all_invokeOn _ _).2
      ⟨Expr.all_of_leaf rfl (h.capture _), List.forall_mem_append.2 ⟨hkey _, hargs⟩⟩

/-- What a field of a job is given has its leaves in that job. -/
theorem all_of_given {j : Job} {f : CaptureField} {executor : Option NodeId}
    {vars : List JobVariable} {e : Expr} (hj : j ∈ s.plan.jobs) (hf : f ∈ j.fields)
    (he : s.Given N executor vars f e) : e.All (P (some j.node)) := by
  have hpassed : s.Makes N e → e.All (P (some j.node)) :=
    fun he x hx => h.passed _ x (h.all_of_makes he x hx)
  cases he with
  | captured _ he => exact hpassed he
  | copied hsource => exact h.fields j hj f hf e hsource
  | fed _ _ _ _ he => exact hpassed he

/-- All that the fields of a job are given has its leaves in that job. -/
theorem all_of_initializes {j : Job} {executor : Option NodeId} {vars : List JobVariable}
    {fs : List CaptureField} {xs : List (String × Expr)} (hj : j ∈ s.plan.jobs)
    (hfs : fs ⊆ j.fields)
    (hxs : s.Initializes N executor vars fs xs) : ∀ x ∈ xs, x.2.All (P (some j.node)) := by
  induction hxs with
  | nil => exact nofun
  | set hgiven _ ih =>
    obtain ⟨hf, hrest⟩ := List.cons_subset.1 hfs
    exact List.forall_mem_cons.2 ⟨h.all_of_given hj hf hgiven, ih hrest⟩
  | skip _ _ _ ih => exact ih (List.cons_subset.1 hfs).2

/-- What holds of all leaves that can be made holds throughout the code. -/
theorem all_of_emits {ss : List Stmt} (hss : s.Emits N ss) : All P ss := by
  induction hss with
  | nil => exact all_nil
  | append _ _ hss hts => exact all_append.2 ⟨hss, hts⟩
  | declare type name hvalue => exact (all_declare type name).2 (h.all_of_makes hvalue)
  | assign htarget hvalue => exact all_assign.2 ⟨h.all_of_makes htarget, h.all_of_makes hvalue⟩
  | eval he => exact all_eval.2 (h.all_of_makes he)
  | ret hvalue => exact all_ret.2 fun e he => h.all_of_makes (hvalue e he)
  | branch hcondition _ _ htrue hfalse =>
    exact all_branch.2 ⟨h.all_of_makes hcondition, htrue, hfalse⟩
  | loop binding hquery _ hbody => exact (all_loop binding).2 ⟨h.all_of_makes hquery, hbody⟩
  | @run n j _ runWith _ _ _ hj hfields hargs hrun =>
    have hcall := h.all_of_makes (makes_runJob (s.jobLocal n j) runWith hargs)
    rw [← List.singleton_append, all_append]
    refine ⟨(all_construct _ _ _ _).2 ?_, ?_⟩
    · exact h.all_of_initializes hj.mem_jobs (List.Subset.refl _) hfields
    · rcases hrun with rfl | ⟨handle, rfl⟩
      · exact all_eval.2 hcall
      · exact (all_declare _ _).2 hcall
  | ofNode n _ hbody => exact (all_ofNode n).2 hbody

end Grounds

end Site

end EntityFlow
