import EntityFlow.Compile.Draft
import EntityFlow.Proofs.Generation.Ledger
import Mathlib.Data.List.Forall2

/-!
# Runs of generation

`Meets m Q E` says how `m` ends, whatever was noted before: in a value that satisfies `Q`, or in an
error that satisfies `E`.  `Noted N m Q` says what the ledger tells about the value: nothing in it
is taken back, and once all of it shows in `N`, the value satisfies `Q`.  One rule for each way to
compose steps takes a goal about a step apart.
-/

namespace EntityFlow.Generation

variable {α β : Type}

/-- Every run of `m` ends in a value that satisfies `Q` or in an error that satisfies `E`. -/
def Meets (m : Generation α) (Q : α → Prop) (E : CompileError → Prop) : Prop :=
  ∀ l, match (m.run.run l).1 with
    | .ok a => Q a
    | .error e => E e

variable {m : Generation α} {f : α → Generation β} {a : α} {e : CompileError} {Q Q' : α → Prop}
  {R : β → Prop} {E E' : CompileError → Prop}

theorem Meets.mono (h : Meets m Q E) (hQ : ∀ a, Q a → Q' a) (hE : ∀ e, E e → E' e) :
    Meets m Q' E' := by
  intro l
  specialize h l
  split at h
  · exact hQ _ h
  · exact hE _ h

theorem Meets.imp (h : Meets m Q E) (hQ : ∀ a, Q a → Q' a) : Meets m Q' E := h.mono hQ fun _ => id

/-- The value is known from one statement, and the error from another. -/
theorem Meets.exchange (h : Meets m Q E) (h' : Meets m Q' E') : Meets m Q E' := by
  intro l
  specialize h l
  specialize h' l
  split at h
  · exact h
  · rename_i e he
    rwa [he] at h'

/-- Nothing is asked of the value or of the error. -/
theorem meets_trivial (m : Generation α) : Meets m (fun _ => True) fun _ => True := by
  intro l
  split <;> trivial

theorem meets_pure (h : Q a) : Meets (pure a) Q E := fun _ => h

theorem meets_throw (h : E e) : Meets (throw e) Q E := fun _ => h

theorem meets_note {T : PUnit → Prop} (x : Note) (h : T ⟨⟩) : Meets (note x) T E := fun _ => h

theorem meets_report {T : PUnit → Prop} (n : NodeId) (problem : Problem) (h : T ⟨⟩) :
    Meets (report n problem) T E := meets_note _ h

theorem meets_ofGraph {x : Except GraphError α} (hok : ∀ a, x = .ok a → Q a)
    (herror : ∀ e, x = .error e → E (.graph e)) : Meets (ofGraph x) Q E := by
  cases x with
  | ok a => exact meets_pure (hok a rfl)
  | error e => exact meets_throw (herror e rfl)

theorem meets_attempt {x : Except CompileError α} (hok : ∀ a, x = .ok a → Q a)
    (herror : ∀ e, x = .error e → E e) : Meets (attempt x) Q E := by
  cases x with
  | ok a => exact meets_pure (hok a rfl)
  | error e => exact meets_throw (herror e rfl)

/-- A bind runs the second part from the ledger of the first, unless the first fails. -/
theorem run_bind (m : Generation α) (f : α → Generation β) (l : Ledger) :
    (m >>= f).run.run l = match m.run.run l with
      | (.ok a, l') => (f a).run.run l'
      | (.error e, l') => (.error e, l') := by
  rw [ExceptT.run_bind, StateT.run_bind]
  rcases m.run.run l with ⟨a | e, l'⟩ <;> rfl

/-- What a computation ends in carries over to what is made of its result. -/
theorem meets_bind (hm : Meets m Q E) (hf : ∀ a, Q a → Meets (f a) R E) : Meets (m >>= f) R E := by
  intro l
  specialize hm l
  rw [run_bind]
  rcases hrun : m.run.run l with ⟨e | a, l'⟩
  · rw [hrun] at hm
    exact hm
  · rw [hrun] at hm
    exact hf a hm l'

/-- One of two steps, and then what goes on from either. -/
theorem meets_ite_bind {c : Prop} [Decidable c] {m' : Generation α} (hm : c → Meets m Q E)
    (hm' : ¬c → Meets m' Q E) (hf : ∀ a, Q a → Meets (f a) R E) :
    Meets (if c then m >>= f else m' >>= f) R E := by
  split
  · rename_i hc
    exact meets_bind (hm hc) hf
  · rename_i hc
    exact meets_bind (hm' hc) hf

/-- A step that may be left out. -/
theorem meets_when_bind {c : Prop} [Decidable c] {m : Generation PUnit} {f : PUnit → Generation β}
    (hm : c → Meets m (fun _ => True) E) (hf : Meets (f ⟨⟩) R E) :
    Meets (if c then m >>= f else f ⟨⟩) R E := by
  split
  · rename_i hc
    exact meets_bind (hm hc) fun _ _ => hf
  · exact hf

theorem meets_map {h : α → β} (hm : Meets m Q E) (hQ : ∀ a, Q a → R (h a)) :
    Meets (h <$> m) R E := by
  rw [map_eq_pure_bind]
  exact meets_bind hm fun a ha => meets_pure (hQ a ha)

/-- What is computed element by element is related to the elements one by one. -/
theorem meets_mapM_forall₂ {xs : List α} {S : α → β → Prop} (h : ∀ x ∈ xs, Meets (f x) (S x) E) :
    Meets (xs.mapM f) (List.Forall₂ S xs) E := by
  induction xs with
  | nil => exact meets_pure .nil
  | cons x xs ih =>
    rw [List.mapM_cons]
    refine meets_bind (h x List.mem_cons_self) fun y hy => ?_
    refine meets_bind (ih fun z hz => h z (List.mem_cons_of_mem x hz)) fun ys hys => meets_pure ?_
    exact .cons hy hys

theorem forall_mem_of_forall₂ {xs : List α} {ys : List β} (h : List.Forall₂ (fun _ => R) xs ys) :
    ∀ y ∈ ys, R y := by
  induction h with
  | nil => exact nofun
  | cons hy _ ih => exact List.forall_mem_cons.2 ⟨hy, ih⟩

theorem meets_mapM {xs : List α} (h : ∀ x ∈ xs, Meets (f x) R E) :
    Meets (xs.mapM f) (fun ys => ∀ y ∈ ys, R y) E :=
  (meets_mapM_forall₂ (S := fun _ => R) h).imp fun _ => forall_mem_of_forall₂

/-- What is caught continues from the ledger in which it was thrown. -/
theorem run_tryCatch (m : Generation α) (handler : CompileError → Generation α) (l : Ledger) :
    (tryCatch m handler).run.run l = match m.run.run l with
      | (.ok a, l') => (.ok a, l')
      | (.error e, l') => (handler e).run.run l' := by
  change (ExceptT.tryCatch m handler).run.run l = _
  rcases hrun : m.run.run l with ⟨e | a, l'⟩
  · have hrun : StateT.run m l = (.error e, l') := hrun
    simp only [ExceptT.tryCatch, ExceptT.run, ExceptT.mk, StateT.run_bind, hrun]
    rfl
  · have hrun : StateT.run m l = (.ok a, l') := hrun
    simp only [ExceptT.tryCatch, ExceptT.run, ExceptT.mk, StateT.run_bind, hrun]
    rfl

/-- An error may be handled, or passed on. -/
theorem meets_tryCatch {handler : CompileError → Generation α} (hm : Meets m Q E)
    (hh : ∀ e, E e → Meets (handler e) Q E') : Meets (tryCatch m handler) Q E' := by
  intro l
  specialize hm l
  rw [run_tryCatch]
  rcases hrun : m.run.run l with ⟨e | a, l'⟩
  · rw [hrun] at hm
    exact hh e hm l'
  · rw [hrun] at hm
    exact hm

/-! ## Notes -/

/-- A run of `m` keeps what was entered before; if all that is entered at its end shows in `N`, its
value satisfies `Q`. -/
def Noted (N : Ledger) (m : Generation α) (Q : α → Prop) : Prop :=
  ∀ l, l ≤ (m.run.run l).2 ∧
    ((m.run.run l).2 ≤ N → ∀ a, (m.run.run l).1 = .ok a → Q a)

variable {N : Ledger}

theorem Noted.imp (h : Noted N m Q) (hQ : ∀ a, Q a → Q' a) : Noted N m Q' := by
  intro l
  obtain ⟨hkept, hvalue⟩ := h l
  exact ⟨hkept, fun hN a ha => hQ a (hvalue hN a ha)⟩

/-- What is known of the value without the ledger stays known. -/
theorem Noted.and_meets (h : Noted N m Q) (hm : Meets m Q' E) : Noted N m fun a => Q a ∧ Q' a := by
  intro l
  obtain ⟨hkept, hvalue⟩ := h l
  refine ⟨hkept, fun hN a ha => ⟨hvalue hN a ha, ?_⟩⟩
  specialize hm l
  rwa [ha] at hm

theorem noted_pure (h : Q a) : Noted N (pure a) Q := by
  intro l
  refine ⟨Ledger.le_refl l, ?_⟩
  rintro - _ ⟨⟩
  exact h

theorem noted_throw : Noted N (throw e : Generation α) Q :=
  fun l => ⟨Ledger.le_refl l, nofun⟩

/-- A note that is made shows in the ledger in the end. -/
theorem noted_note (x : Note) : Noted N (note x) fun _ => N.Shows x := by
  intro l
  constructor
  · exact Ledger.le_add l x
  · intro hN _ _
    exact (Ledger.shows_add l x).mono hN

/-- A problem that is reported is among the problems in the end. -/
theorem noted_report (n : NodeId) (problem : Problem) :
    Noted N (report n problem) fun _ => .atNode n problem ∈ N.diagnostics :=
  (noted_note _).imp fun _ hx => hx.problem _ rfl

/-- What is known of the first value is left to show for the second, since it holds in the end
only. -/
theorem noted_bind (hm : Noted N m Q) (hf : ∀ a, Noted N (f a) fun b => Q a → R b) :
    Noted N (m >>= f) R := by
  intro l
  obtain ⟨hkept, hvalue⟩ := hm l
  rw [run_bind]
  rcases hrun : m.run.run l with ⟨e | a, l'⟩
  · rw [hrun] at hkept
    exact ⟨hkept, nofun⟩
  · rw [hrun] at hkept hvalue
    obtain ⟨hkept', hvalue'⟩ := hf a l'
    refine ⟨Ledger.le_trans hkept hkept', fun hN b hb => hvalue' hN b hb ?_⟩
    exact hvalue (Ledger.le_trans hkept' hN) a rfl

/-- Nothing has to be known of the first value. -/
theorem noted_then (hm : Noted N m fun _ => True) (hf : ∀ a, Noted N (f a) R) :
    Noted N (m >>= f) R :=
  noted_bind hm fun a => (hf a).imp fun _ hb _ => hb

/-- A value of the graph is known before anything is noted. -/
theorem noted_ofGraph_bind {x : Except GraphError α} (hf : ∀ a, x = .ok a → Noted N (f a) R) :
    Noted N (ofGraph x >>= f) R := by
  cases x with
  | ok a =>
    change Noted N (pure a >>= f) R
    rw [pure_bind]
    exact hf a rfl
  | error e => exact fun l => ⟨Ledger.le_refl l, nofun⟩

/-- A value of the graph of which nothing has to be known. -/
theorem noted_ofGraph_then {x : Except GraphError α} (hf : ∀ a, Noted N (f a) R) :
    Noted N (ofGraph x >>= f) R :=
  noted_ofGraph_bind fun a _ => hf a

/-- An error ends the run, so that only results have to be followed. -/
theorem noted_attempt_bind {x : Except CompileError α} (hf : ∀ a, x = .ok a → Noted N (f a) R) :
    Noted N (attempt x >>= f) R := by
  cases x with
  | ok a =>
    change Noted N (pure a >>= f) R
    rw [pure_bind]
    exact hf a rfl
  | error e => exact fun l => ⟨Ledger.le_refl l, nofun⟩

theorem noted_map {h : α → β} (hm : Noted N m Q) (hQ : ∀ a, Q a → R (h a)) :
    Noted N (h <$> m) R := by
  rw [map_eq_pure_bind]
  exact noted_bind hm fun a => noted_pure (hQ a)

/-- One of two steps, and then what goes on from either. -/
theorem noted_ite_bind {c : Prop} [Decidable c] {m' : Generation α} (hm : Noted N m Q)
    (hm' : Noted N m' Q) (hf : ∀ a, Noted N (f a) fun b => Q a → R b) :
    Noted N (if c then m >>= f else m' >>= f) R := by
  split
  · exact noted_bind hm hf
  · exact noted_bind hm' hf

/-- A step that may be left out. -/
theorem noted_when_bind {c : Prop} [Decidable c] {m : Generation PUnit} {f : PUnit → Generation β}
    (hm : Noted N m fun _ => True) (hf : Noted N (f ⟨⟩) R) :
    Noted N (if c then m >>= f else f ⟨⟩) R := by
  split
  · exact noted_then hm fun _ => hf
  · exact hf

theorem noted_mapM_forall₂ {xs : List α} {S : α → β → Prop} (h : ∀ x ∈ xs, Noted N (f x) (S x)) :
    Noted N (xs.mapM f) (List.Forall₂ S xs) := by
  induction xs with
  | nil => exact noted_pure .nil
  | cons x xs ih =>
    rw [List.mapM_cons]
    refine noted_bind (h x List.mem_cons_self) fun y => ?_
    refine noted_bind (ih fun z hz => h z (List.mem_cons_of_mem x hz)) fun ys => noted_pure ?_
    intro hys hy
    exact .cons hy hys

/-- Computing element by element keeps the length. -/
theorem noted_mapM_length {xs : List α} (h : ∀ x ∈ xs, Noted N (f x) R) :
    Noted N (xs.mapM f) fun ys => ys.length = xs.length ∧ ∀ y ∈ ys, R y :=
  (noted_mapM_forall₂ (S := fun _ => R) h).imp fun _ hys =>
    ⟨hys.length_eq.symm, forall_mem_of_forall₂ hys⟩

/-- Every value tells where it comes from. -/
theorem noted_mapM_key {xs : List α} {key : β → α}
    (h : ∀ x ∈ xs, Noted N (f x) fun y => key y = x ∧ R y) :
    Noted N (xs.mapM f) fun ys => ys.map key = xs ∧ ∀ y ∈ ys, R y := by
  refine (noted_mapM_forall₂ (S := fun x y => key y = x ∧ R y) h).imp fun ys hys => ?_
  clear h
  induction hys with
  | nil => exact ⟨rfl, nofun⟩
  | cons hy _ ih => exact ⟨by simp [hy.1, ih.1], List.forall_mem_cons.2 ⟨hy.2, ih.2⟩⟩

theorem noted_mapM {xs : List α} (h : ∀ x ∈ xs, Noted N (f x) R) :
    Noted N (xs.mapM f) fun ys => ∀ y ∈ ys, R y :=
  (noted_mapM_length h).imp fun _ hys => hys.2

/-- Whichever branch is taken, what it notes shows. -/
theorem noted_tryCatch {handler : CompileError → Generation α} (hm : Noted N m Q)
    (hh : ∀ e, Noted N (handler e) Q) : Noted N (tryCatch m handler) Q := by
  intro l
  obtain ⟨hkept, hvalue⟩ := hm l
  rw [run_tryCatch]
  rcases hrun : m.run.run l with ⟨e | a, l'⟩
  · rw [hrun] at hkept
    obtain ⟨hkept', hvalue'⟩ := hh e l'
    exact ⟨Ledger.le_trans hkept hkept', hvalue'⟩
  · rw [hrun] at hkept hvalue
    exact ⟨hkept, hvalue⟩

end EntityFlow.Generation

namespace EntityFlow.Site

/-- A handle is refused only where the update method is lacking. -/
theorem request_eq_error {s : Site} {n : NodeId} {h : Handle} {e : CompileError}
    (he : s.request n h = .error e) : e = .missingEntryPoint updateMethod ∧ s.scope.method? = none ∧
      s.graph.settings.flavor.isSystem = false := by
  unfold request at he
  cases hmethod : s.scope.method? with
  | none =>
    simp only [hmethod] at he
    split at he
    · cases he
    · rename_i hsystem
      exact ⟨(Except.error.inj he).symm, rfl, by simpa using hsystem⟩
  | some method =>
    simp only [hmethod] at he
    cases he

end EntityFlow.Site
