import EntityFlow.Proofs.Generation.Drafts

/-!
# The parts of generated code

Calls and constructions occur at any depth of a body.  The parts of a body list them all, and each
is one of the forms of generation again: a statement is a construction, or all its expressions are
made at the site.
-/

namespace EntityFlow

/-! ## Expressions -/

namespace Expr

mutual

def parts : Expr → List Expr
  | .binary op left right => .binary op left right :: (parts left ++ parts right)
  | .call m qualifier name args => .call m qualifier name args :: partsOf args
  | .access target name => .access target name :: parts target
  | .index target key => .index target key :: (parts target ++ parts key)
  | .invoke method generics args => .invoke method generics args :: partsOf args
  | .invokeOn target method generics args =>
      .invokeOn target method generics args :: (parts target ++ partsOf args)
  | .ident text => [.ident text]
  | .handle h name use => [.handle h name use]
  | .capture field => [.capture field]
  | .literal value => [.literal value]
  | .unresolved port => [.unresolved port]
  | .member m qualifier name => [.member m qualifier name]

def partsOf : List Expr → List Expr
  | [] => []
  | e :: rest => parts e ++ partsOf rest

end

theorem mem_partsOf {x : Expr} {es : List Expr} : x ∈ partsOf es ↔ ∃ e ∈ es, x ∈ e.parts := by
  induction es with
  | nil => simp [partsOf]
  | cons e rest ih => simp [partsOf, ih]

def Every (P : Expr → Prop) (e : Expr) : Prop := ∀ x ∈ e.parts, P x

section Every

variable {P : Expr → Prop} {e left right target key : Expr} {args : List Expr}

/-- A property of all parts is one of each argument and its parts. -/
theorem forall_mem_partsOf : (∀ x ∈ partsOf args, P x) ↔ ∀ e ∈ args, e.Every P := by
  simp only [mem_partsOf, Every]
  constructor
  · intro h e he x hx
    exact h x ⟨e, he, hx⟩
  · rintro h x ⟨e, he, hx⟩
    exact h e he x hx

theorem every_of_leaf (hleaf : e.parts = [e]) (h : P e) : e.Every P := by
  rw [Every, hleaf]
  exact List.forall_mem_singleton.2 h

theorem every_binary (op : BinaryOp) : (binary op left right).Every P ↔
    P (binary op left right) ∧ left.Every P ∧ right.Every P := by
  simp only [Every, parts, List.forall_mem_cons, List.forall_mem_append]

theorem every_call (m : MemberId) (qualifier : Option String) (name : String) :
    (call m qualifier name args).Every P ↔
      P (call m qualifier name args) ∧ ∀ e ∈ args, e.Every P := by
  rw [Every, parts, List.forall_mem_cons, forall_mem_partsOf]

theorem every_access (name : String) :
    (access target name).Every P ↔ P (access target name) ∧ target.Every P := by
  simp only [Every, parts, List.forall_mem_cons]

theorem every_index :
    (index target key).Every P ↔ P (index target key) ∧ target.Every P ∧ key.Every P := by
  simp only [Every, parts, List.forall_mem_cons, List.forall_mem_append]

theorem every_invoke (method : String) (generics : List String) :
    (invoke method generics args).Every P ↔
      P (invoke method generics args) ∧ ∀ e ∈ args, e.Every P := by
  rw [Every, parts, List.forall_mem_cons, forall_mem_partsOf]

theorem every_invokeOn (method : String) (generics : List String) :
    (invokeOn target method generics args).Every P ↔
      P (invokeOn target method generics args) ∧ target.Every P ∧ ∀ e ∈ args, e.Every P := by
  rw [Every, parts, List.forall_mem_cons, List.forall_mem_append, forall_mem_partsOf]
  rfl

end Every

end Expr

/-! ## Statements -/

namespace Stmt

/-- The expressions that a statement is made of, apart from those in statements within it. -/
def exprs : Stmt → List Expr
  | .declare _ _ value => [value]
  | .assign target value => [target, value]
  | .eval e => [e]
  | .ret value => value.toList
  | .branch condition _ _ => [condition]
  | .loop _ query _ => [query]
  | .construct _ _ _ fields => fields.map Prod.snd
  | .ofNode _ _ => []

mutual

def parts : Stmt → List Stmt
  | .branch condition onTrue onFalse =>
      .branch condition onTrue onFalse :: (partsOf onTrue ++ partsOf onFalse)
  | .loop binding query body => .loop binding query body :: partsOf body
  | .ofNode n body => .ofNode n body :: partsOf body
  | .declare type name value => [.declare type name value]
  | .assign target value => [.assign target value]
  | .eval e => [.eval e]
  | .ret value => [.ret value]
  | .construct job name type fields => [.construct job name type fields]

def partsOf : List Stmt → List Stmt
  | [] => []
  | s :: rest => parts s ++ partsOf rest

end

theorem mem_partsOf {t : Stmt} {ss : List Stmt} : t ∈ partsOf ss ↔ ∃ s ∈ ss, t ∈ s.parts := by
  induction ss with
  | nil => simp [partsOf]
  | cons s rest ih => simp [partsOf, ih]

theorem partsOf_singleton (s : Stmt) : partsOf [s] = s.parts := by simp [partsOf]

def exprsIn (ss : List Stmt) : List Expr :=
  (partsOf ss).flatMap fun t => t.exprs.flatMap Expr.parts

/-- A property of all expressions in a body is one of each statement, at any depth. -/
theorem forall_mem_exprsIn {P : Expr → Prop} {ss : List Stmt} :
    (∀ x ∈ exprsIn ss, P x) ↔ ∀ t ∈ partsOf ss, ∀ e ∈ t.exprs, e.Every P := by
  simp only [exprsIn, List.forall_mem_flatMap, Expr.Every]

end Stmt

/-! ## Parts of what is generated -/

namespace Site

open Stmt

variable {s : Site} {N : Ledger} {P : Expr → Prop}

/-- A statement that is made at the site, apart from the statements within it. -/
inductive States (s : Site) (N : Ledger) : Stmt → Prop
  | plain {t : Stmt} (h : ∀ e ∈ t.exprs, s.Makes N e) (hplain : ∀ job name type fields,
      t ≠ .construct job name type fields) : States s N t
  | construct {n : NodeId} {j : Job} {executor : Option NodeId} {runWith : Discipline}
      {fields : List (String × Expr)} (hj : s.plan.Constructs s.graph n j executor runWith)
      (hfields : s.Initializes N executor (s.graph.jobVariables j.node) j.fields fields) :
      States s N (.construct j.node (s.jobLocal n j) j.typeName fields)

/-- By induction on the form of the body. -/
theorem Emits.states {ss : List Stmt} (h : s.Emits N ss) : ∀ t ∈ partsOf ss, s.States N t := by
  induction h with
  | nil => exact nofun
  | append _ _ hss hts =>
    intro t ht
    obtain ⟨u, hu, ht⟩ := mem_partsOf.1 ht
    rcases List.mem_append.1 hu with hu | hu
    · exact hss t (mem_partsOf.2 ⟨u, hu, ht⟩)
    · exact hts t (mem_partsOf.2 ⟨u, hu, ht⟩)
  | declare type name h =>
    simp only [partsOf_singleton, Stmt.parts, List.forall_mem_singleton]
    exact .plain (List.forall_mem_singleton.2 h) nofun
  | assign htarget hvalue =>
    simp only [partsOf_singleton, Stmt.parts, List.forall_mem_singleton]
    exact .plain (List.forall_mem_cons.2 ⟨htarget, List.forall_mem_singleton.2 hvalue⟩) nofun
  | eval h =>
    simp only [partsOf_singleton, Stmt.parts, List.forall_mem_singleton]
    exact .plain (List.forall_mem_singleton.2 h) nofun
  | ret h =>
    simp only [partsOf_singleton, Stmt.parts, List.forall_mem_singleton]
    exact .plain (by simpa [exprs] using h) nofun
  | branch hcondition _ _ htrue hfalse =>
    simp only [partsOf_singleton, Stmt.parts, List.forall_mem_cons, List.forall_mem_append]
    exact ⟨.plain (List.forall_mem_singleton.2 hcondition) nofun, htrue, hfalse⟩
  | loop binding hquery _ hbody =>
    simp only [partsOf_singleton, Stmt.parts, List.forall_mem_cons]
    exact ⟨.plain (List.forall_mem_singleton.2 hquery) nofun, hbody⟩
  | run hj hfields hargs hrun =>
    rcases hrun with rfl | ⟨handle, rfl⟩
    · simp only [partsOf, Stmt.parts, List.forall_mem_append, List.forall_mem_singleton]
      exact ⟨.construct hj hfields,
        .plain (List.forall_mem_singleton.2 (makes_runJob _ _ hargs)) nofun, List.forall_mem_nil _⟩
    · simp only [partsOf, Stmt.parts, List.forall_mem_append, List.forall_mem_singleton]
      exact ⟨.construct hj hfields,
        .plain (List.forall_mem_singleton.2 (makes_runJob _ _ hargs)) nofun, List.forall_mem_nil _⟩
  | ofNode n _ hbody =>
    simp only [partsOf_singleton, Stmt.parts, List.forall_mem_cons]
    exact ⟨.plain (List.forall_mem_nil _) nofun, hbody⟩

/-- A field is set to something made at the site, or to what the plan has for it. -/
theorem Initializes.value {executor : Option NodeId} {vars : List JobVariable}
    {fs : List CaptureField} {xs : List (String × Expr)} (h : s.Initializes N executor vars fs xs) :
    ∀ x ∈ xs, s.Makes N x.2 ∨ ∃ f ∈ fs, f.source = .expression x.2 := by
  induction h with
  | nil => exact nofun
  | set hgiven _ ih =>
    refine List.forall_mem_cons.2 ⟨?_, fun x hx => ?_⟩
    · cases hgiven with
      | captured _ he => exact .inl he
      | copied hsource => exact .inr ⟨_, List.mem_cons_self, hsource⟩
      | fed _ _ _ _ he => exact .inl he
    · refine (ih x hx).imp_right ?_
      rintro ⟨f, hf, hsource⟩
      exact ⟨f, List.mem_cons_of_mem _ hf, hsource⟩
  | skip _ _ _ ih =>
    intro x hx
    refine (ih x hx).imp_right ?_
    rintro ⟨f, hf, hsource⟩
    exact ⟨f, List.mem_cons_of_mem _ hf, hsource⟩

/-- What holds throughout all that is made at the site, and throughout all that jobs are given from
the plan, holds throughout the body. -/
theorem Emits.forall_exprsIn {ss : List Stmt} (h : s.Emits N ss)
    (hmakes : ∀ e, s.Makes N e → e.Every P)
    (hfields : ∀ j ∈ s.plan.jobs, ∀ f ∈ j.fields, ∀ e, f.source = .expression e → e.Every P) :
    ∀ x ∈ Stmt.exprsIn ss, P x := by
  refine forall_mem_exprsIn.2 fun t ht => ?_
  cases h.states t ht with
  | plain hexprs _ => exact fun e he => hmakes e (hexprs e he)
  | construct hj hinit =>
    intro e he
    obtain ⟨x, hx, rfl⟩ := List.mem_map.1 he
    rcases hinit.value x hx with hmade | ⟨f, hf, hsource⟩
    · exact hmakes _ hmade
    · exact hfields _ hj.mem_jobs f hf _ hsource

end Site

end EntityFlow
