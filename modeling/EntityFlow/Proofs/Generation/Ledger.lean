import EntityFlow.Compile.Site
import Mathlib.Data.List.Basic

/-!
# Ledgers

Besides making code, generation enters notes into a ledger.  Nothing is taken back: what was entered
shows in every later ledger.  `Ledger.Settled` is what every note keeps: a method that was asked for
a handle has one declaration of it, a method that was not has none, and a function that was asked
for one it cannot declare is reported.  By induction it holds of the ledger after any number of
notes.
-/

namespace EntityFlow

open Declaration (Part)

@[simp] theorem Handle.priority_part (flavor : Flavor) (h : Handle) (name : String) :
    (h.part flavor name).priority = h.priority := rfl

/-- The priority of a declaration tells its handle. -/
theorem Handle.priority_inj {h k : Handle} : h.priority = k.priority ↔ h = k := by
  cases h <;> cases k <;> simp [priority]

def Handle.all : List Handle := [.commandBuffer, .entityManager]

theorem Handle.mem_all (h : Handle) : h ∈ all := by
  cases h <;> decide

/-- Whether a part is the declaration of a handle, which is all that has the priority of one. -/
def Handle.isDeclaration (x : Part) : Bool := all.any fun h => x.priority = h.priority

@[simp] theorem Handle.isDeclaration_part (flavor : Flavor) (h : Handle) (name : String) :
    isDeclaration (h.part flavor name) = true := by
  cases h <;> simp [isDeclaration, all]

/-- Declarations of time values, which a plan adds to the update method beside those of handles. -/
def Plan.timeParts (p : Plan) : List Part := p.parts.filter fun x => x.priority = -900

/-- The note asks for a handle in the function of that name, or outside functions. -/
def Note.Asks (method : Option String) (h : Handle) : Note → Prop
  | .problem _ => False
  | .root k _ => none = method ∧ k = h
  | .own m k _ | .foreign m _ k => some m = method ∧ k = h

namespace Ledger

variable {l l' l'' : Ledger} {x : Note} {notes : List Note} {method : Option String} {h : Handle}

def Asks (l : Ledger) : Option String → Handle → Prop
  | none, h => h ∈ l.handles
  | some m, h => (m, h) ∈ l.functionHandles

instance : (method : Option String) → (h : Handle) → Decidable (l.Asks method h)
  | none, h => inferInstanceAs (Decidable (h ∈ l.handles))
  | some m, h => inferInstanceAs (Decidable ((m, h) ∈ l.functionHandles))

/-- What entering a note does: only the first request for a handle changes anything. -/
theorem add_cases (l : Ledger) (x : Note) :
    (∃ d, x = .problem d ∧ l.add x = { l with diagnostics := l.diagnostics ++ [d] }) ∨
    (∃ method h, (∀ m k, x.Asks m k ↔ method = m ∧ h = k) ∧ l.Asks method h ∧ l.add x = l) ∨
    (∃ h part, x = .root h part ∧ h ∉ l.handles ∧ l.add x =
      { l with handles := l.handles ++ [h], parts := l.parts ++ [(updateMethod, part)] }) ∨
    (∃ m h part, x = .own m h part ∧ (m, h) ∉ l.functionHandles ∧ l.add x =
      { l with
        functionHandles := l.functionHandles ++ [(m, h)]
        parts := l.parts ++ [(m, part)] }) ∨
    ∃ m n h, x = .foreign m n h ∧ (m, h) ∉ l.functionHandles ∧ l.add x =
      { l with
        functionHandles := l.functionHandles ++ [(m, h)]
        diagnostics := l.diagnostics ++ [.atNode n (.handleOutsideUpdate m)] } := by
  cases x with
  | problem d => exact .inl ⟨d, rfl, rfl⟩
  | root h part =>
    by_cases hold : h ∈ l.handles
    · exact .inr (.inl ⟨none, h, fun _ _ => .rfl, hold, if_pos (List.contains_iff_mem.2 hold)⟩)
    · exact .inr (.inr (.inl ⟨h, part, rfl, hold, if_neg (mt List.contains_iff_mem.1 hold)⟩))
  | own m h part =>
    by_cases hold : (m, h) ∈ l.functionHandles
    · exact .inr (.inl ⟨some m, h, fun _ _ => .rfl, hold, if_pos (List.contains_iff_mem.2 hold)⟩)
    · exact .inr
        (.inr (.inr (.inl ⟨m, h, part, rfl, hold, if_neg (mt List.contains_iff_mem.1 hold)⟩)))
  | foreign m n h =>
    by_cases hold : (m, h) ∈ l.functionHandles
    · exact .inr (.inl ⟨some m, h, fun _ _ => .rfl, hold, if_pos (List.contains_iff_mem.2 hold)⟩)
    · exact .inr (.inr (.inr (.inr ⟨m, n, h, rfl, hold, if_neg (mt List.contains_iff_mem.1 hold)⟩)))

/-- A handle is not declared or reported twice. -/
theorem add_eq_self (hx : x.Asks method h) (hold : l.Asks method h) : l.add x = l := by
  rcases add_cases l x with ⟨d, rfl, -⟩ | ⟨m, k, -, -, hadd⟩ | ⟨k, part, rfl, hnew, -⟩ |
    ⟨m, k, part, rfl, hnew, -⟩ | ⟨m, n, k, rfl, hnew, -⟩
  · exact hx.elim
  · exact hadd
  · obtain ⟨rfl, rfl⟩ := hx
    exact absurd hold hnew
  · obtain ⟨rfl, rfl⟩ := hx
    exact absurd hold hnew
  · obtain ⟨rfl, rfl⟩ := hx
    exact absurd hold hnew

/-! ## What shows in a ledger -/

/-- The handles of a ledger are those that were asked for. -/
theorem asks_add : (l.add x).Asks method h ↔ l.Asks method h ∨ x.Asks method h := by
  rcases add_cases l x with ⟨d, rfl, hadd⟩ | ⟨m, k, hx, hold, hadd⟩ | ⟨k, part, rfl, -, hadd⟩ |
    ⟨m, k, part, rfl, -, hadd⟩ | ⟨m, n, k, rfl, -, hadd⟩
  · rw [hadd]
    cases method <;> simp [Asks, Note.Asks]
  · rw [hadd, hx]
    refine ⟨.inl, fun hasks => hasks.elim id ?_⟩
    rintro ⟨rfl, rfl⟩
    exact hold
  · rw [hadd]
    cases method <;> simp [Asks, Note.Asks, eq_comm]
  · rw [hadd]
    cases method <;> simp [Asks, Note.Asks, eq_comm]
  · rw [hadd]
    cases method <;> simp [Asks, Note.Asks, eq_comm]

/-- Nothing that was reported is lost. -/
theorem diagnostics_add : l.diagnostics ⊆ (l.add x).diagnostics := by
  rcases add_cases l x with ⟨d, rfl, hadd⟩ | ⟨m, k, -, -, hadd⟩ | ⟨k, part, rfl, -, hadd⟩ |
    ⟨m, k, part, rfl, -, hadd⟩ | ⟨m, n, k, rfl, -, hadd⟩ <;> simp [hadd]

/-- Whatever shows in `l` shows in `l'`. -/
structure Le (l l' : Ledger) : Prop where
  diagnostics : l.diagnostics ⊆ l'.diagnostics
  asks : ∀ method h, l.Asks method h → l'.Asks method h

instance : LE Ledger := ⟨Le⟩

theorem le_refl (l : Ledger) : l ≤ l := ⟨List.Subset.refl _, fun _ _ => id⟩

theorem le_trans (h : l ≤ l') (h' : l' ≤ l'') : l ≤ l'' :=
  ⟨List.Subset.trans h.diagnostics h'.diagnostics, fun m k hk => h'.asks m k (h.asks m k hk)⟩

/-- Entering a note only adds to the ledger. -/
theorem le_add (l : Ledger) (x : Note) : l ≤ l.add x :=
  ⟨diagnostics_add, fun _ _ hold => asks_add.2 (.inl hold)⟩

/-- The note shows in the ledger. -/
structure Shows (l : Ledger) (x : Note) : Prop where
  problem : ∀ d, x = .problem d → d ∈ l.diagnostics
  asks : ∀ method h, x.Asks method h → l.Asks method h

/-- A note that shows in a ledger shows in all that follow. -/
theorem Shows.mono (hx : l.Shows x) (h : l ≤ l') : l'.Shows x :=
  ⟨fun d hd => h.diagnostics (hx.problem d hd), fun m k hk => h.asks m k (hx.asks m k hk)⟩

/-- A note shows as soon as it is entered. -/
theorem shows_add (l : Ledger) (x : Note) : (l.add x).Shows x where
  problem d hd := by simp [hd, add]
  asks _ _ hx := asks_add.2 (.inr hx)

/-! ## Many notes -/

def enter (l : Ledger) (notes : List Note) : Ledger := notes.foldl add l

@[simp] theorem enter_nil : l.enter [] = l := rfl

@[simp] theorem enter_cons : l.enter (x :: notes) = (l.add x).enter notes := rfl

theorem enter_append (notes notes' : List Note) :
    l.enter (notes ++ notes') = (l.enter notes).enter notes' :=
  List.foldl_append

/-- Entering notes only adds to the ledger. -/
theorem le_enter (l : Ledger) (notes : List Note) : l ≤ l.enter notes := by
  induction notes generalizing l with
  | nil => exact le_refl l
  | cons x notes ih => exact le_trans (le_add l x) (ih _)

/-- Every note that was entered shows in the end. -/
theorem shows_enter (hx : x ∈ notes) : (l.enter notes).Shows x := by
  obtain ⟨before, after, rfl⟩ := List.append_of_mem hx
  rw [enter_append, enter_cons]
  exact (shows_add _ x).mono (le_enter _ after)

/-! ## Declarations -/

section Settled

variable {g : Graph} {p : Plan}

/-- What generation enters for a plan: handles are declared under their names, and by functions only
in a managed system. -/
def Fits (g : Graph) (p : Plan) : Note → Prop
  | .problem _ => True
  | .root h part => part = h.part g.settings.flavor (p.handleName h)
  | .own m h part => g.settings.flavor = .managedSystem ∧ m ∈ Naming.functionNames g p.symbols ∧
      part = h.part g.settings.flavor (p.handleName h)
  | .foreign _ _ _ => g.settings.flavor ≠ .managedSystem

/-- The method is to declare the handle: the update method what was asked for outside functions, and
a function of a managed system what was asked for in it. -/
def Wants (g : Graph) (l : Ledger) (m : String) (h : Handle) : Prop :=
  if m = updateMethod then l.Asks none h
  else g.settings.flavor = .managedSystem ∧ l.Asks (some m) h

instance (m : String) (h : Handle) : Decidable (l.Wants g m h) :=
  inferInstanceAs (Decidable (if m = updateMethod then l.Asks none h
    else g.settings.flavor = .managedSystem ∧ l.Asks (some m) h))

/-- The declarations of a handle in a method: no other part has its priority. -/
def declarations (l : Ledger) (m : String) (h : Handle) : List Part :=
  (l.partsOf m).filter fun part => part.priority = h.priority

def others (l : Ledger) (m : String) : List Part :=
  (l.partsOf m).filter fun part => !Handle.isDeclaration part

/-- What holds of a ledger at every time while the code of a plan is generated. -/
structure Settled (g : Graph) (p : Plan) (l : Ledger) : Prop where
  once : ∀ m h, l.Wants g m h → l.declarations m h = [h.part g.settings.flavor (p.handleName h)]
  none : ∀ m h, ¬l.Wants g m h → l.declarations m h = []
  /-- Besides handles only time values are declared, by the update method. -/
  times : ∀ m, l.others m = if m = updateMethod then p.timeParts else []
  /-- Methods that are asked for handles and can declare them are those of functions. -/
  functions : g.settings.flavor = .managedSystem → ∀ m h, l.Asks (some m) h →
    m ∈ Naming.functionNames g p.symbols
  reported : g.settings.flavor ≠ .managedSystem → ∀ m h, l.Asks (some m) h →
    ∃ n, .atNode n (.handleOutsideUpdate m) ∈ l.diagnostics

/-- The declarations that a method is to have, in the order of the handles. -/
def wanted (g : Graph) (p : Plan) (l : Ledger) (m : String) : List Part :=
  (Handle.all.filter fun h => l.Wants g m h).map fun h => h.part g.settings.flavor (p.handleName h)

/-- Sorted by handle, declarations are those of one handle after the other. -/
theorem perm_filter_isDeclaration (xs : List Part) : (xs.filter Handle.isDeclaration).Perm
    (Handle.all.flatMap fun h => xs.filter fun x => x.priority = h.priority) := by
  have hsplit :=
    (List.filter_append_perm (fun x : Part => x.priority = Handle.commandBuffer.priority)
    (xs.filter Handle.isDeclaration)).symm
  have hbuffer : (fun x : Part => decide (x.priority = Handle.commandBuffer.priority) &&
      Handle.isDeclaration x) = fun x => decide (x.priority = Handle.commandBuffer.priority) := by
    funext x
    by_cases h : x.priority = Handle.commandBuffer.priority <;>
      simp [h, Handle.isDeclaration, Handle.all]
  have hmanager : (fun x : Part => !decide (x.priority = Handle.commandBuffer.priority) &&
      Handle.isDeclaration x) = fun x => decide (x.priority = Handle.entityManager.priority) := by
    funext x
    by_cases h : x.priority = Handle.commandBuffer.priority
    · simp [h, Handle.priority_inj]
    · simp [h, Handle.isDeclaration, Handle.all]
  rw [List.filter_filter, List.filter_filter, hbuffer, hmanager] at hsplit
  simpa [Handle.all] using hsplit

/-- What was added to a method, apart from the order. -/
theorem Settled.perm_partsOf (hl : l.Settled g p) (m : String) : (l.partsOf m).Perm
    (l.wanted g p m ++ if m = updateMethod then p.timeParts else []) := by
  have hwanted : (Handle.all.flatMap fun h => l.declarations m h) = l.wanted g p m := by
    have hone : ∀ h, l.declarations m h =
        if l.Wants g m h then [h.part g.settings.flavor (p.handleName h)] else [] := by
      intro h
      split
      · exact hl.once m h ‹_›
      · exact hl.none m h ‹_›
    simp only [hone, wanted, Handle.all, List.flatMap_cons, List.flatMap_nil, List.append_nil]
    by_cases hb : l.Wants g m .commandBuffer <;> by_cases hm : l.Wants g m .entityManager <;>
      simp [hb, hm]
  rw [← hl.times m, ← hwanted]
  exact (List.filter_append_perm _ _).symm.trans
    (List.Perm.append_right _ (perm_filter_isDeclaration _))

/-- A part that is added counts as a declaration of its handle in its method. -/
theorem declarations_append {flavor : Flavor} {m' name : String} {k : Handle}
    (hparts : l'.parts = l.parts ++ [(m', k.part flavor name)]) (m : String) (h : Handle) :
    l'.declarations m h =
      l.declarations m h ++ if m' = m ∧ k = h then [k.part flavor name] else [] := by
  rw [declarations, partsOf, hparts, List.filterMap_append, List.filter_append]
  congr 1
  by_cases hm : m' = m
  · by_cases hk : k = h <;> simp [hm, Handle.priority_inj, hk]
  · simp [hm]

/-- A method that did not declare the handle until now declares it once from now on, and nothing
else changes. -/
theorem Settled.declare (hl : l.Settled g p) (m' : String) (k : Handle) (hnew : ¬l.Wants g m' k)
    (hparts : l'.parts = l.parts ++ [(m', k.part g.settings.flavor (p.handleName k))])
    (hwants : ∀ m h, l'.Wants g m h ↔ l.Wants g m h ∨ m' = m ∧ k = h) (m : String) (h : Handle) :
    (l'.Wants g m h → l'.declarations m h = [h.part g.settings.flavor (p.handleName h)]) ∧
    (¬l'.Wants g m h → l'.declarations m h = []) := by
  rw [declarations_append hparts, hwants]
  by_cases hthis : m' = m ∧ k = h
  · obtain ⟨rfl, rfl⟩ := hthis
    rw [if_pos ⟨rfl, rfl⟩, hl.none _ _ hnew]
    exact ⟨fun _ => rfl, fun hnot => absurd (.inr ⟨rfl, rfl⟩) hnot⟩
  · rw [if_neg hthis, List.append_nil, or_iff_left hthis]
    exact ⟨hl.once m h, hl.none m h⟩

/-- A declaration changes nothing about the other parts. -/
theorem others_append {flavor : Flavor} {m' name : String} {k : Handle}
    (hparts : l'.parts = l.parts ++ [(m', k.part flavor name)]) (m : String) :
    l'.others m = l.others m := by
  rw [others, partsOf, hparts, List.filterMap_append, List.filter_append]
  by_cases hm : m' = m <;> simp [hm, others, partsOf]

/-- A note changes nothing about parts that are no declarations. -/
theorem others_add (hx : Fits g p x) (m : String) : (l.add x).others m = l.others m := by
  rcases add_cases l x with ⟨d, rfl, hadd⟩ | ⟨m', k, -, -, hadd⟩ | ⟨k, part, rfl, -, hadd⟩ |
    ⟨m', k, part, rfl, -, hadd⟩ | ⟨m', n, k, rfl, -, hadd⟩
  · rw [hadd]
    rfl
  · rw [hadd]
  · obtain rfl := hx
    exact others_append (by rw [hadd]) m
  · obtain ⟨-, -, rfl⟩ := hx
    exact others_append (by rw [hadd]) m
  · rw [hadd]
    rfl

/-- Functions that ask for a handle are functions of the unit. -/
theorem functions_add (hl : ∀ m h, l.Asks (some m) h → m ∈ Naming.functionNames g p.symbols)
    (hx : Fits g p x) (hflavor : g.settings.flavor = .managedSystem) (m : String) (h : Handle)
    (hm : (l.add x).Asks (some m) h) : m ∈ Naming.functionNames g p.symbols := by
  rcases asks_add.1 hm with hold | hnew
  · exact hl m h hold
  · cases x with
    | problem d => exact hnew.elim
    | root k part => exact absurd hnew.1 nofun
    | own m' k part => exact Option.some.inj hnew.1 ▸ hx.2.1
    | foreign m' n k => exact absurd hflavor hx

/-- A function that cannot declare a handle is reported when it first asks for one. -/
theorem reported_add (hl : ∀ m h, l.Asks (some m) h →
    ∃ n, .atNode n (.handleOutsideUpdate m) ∈ l.diagnostics)
    (hx : Fits g p x) (hflavor : g.settings.flavor ≠ .managedSystem) (m : String) (h : Handle)
    (hm : (l.add x).Asks (some m) h) :
    ∃ n, .atNode n (.handleOutsideUpdate m) ∈ (l.add x).diagnostics := by
  by_cases hold : l.Asks (some m) h
  · obtain ⟨n, hn⟩ := hl m h hold
    exact ⟨n, diagnostics_add hn⟩
  · have hnew := (asks_add.1 hm).resolve_left hold
    cases x with
    | problem d => exact hnew.elim
    | root k part => exact absurd hnew.1 nofun
    | own m' k part => exact absurd hx.1 hflavor
    | foreign m' n k =>
      obtain ⟨heq, rfl⟩ := hnew
      obtain rfl := Option.some.inj heq
      have hadd : (l.add (.foreign m' n k)).diagnostics =
          l.diagnostics ++ [.atNode n (.handleOutsideUpdate m')] := by
        rw [Ledger.add, if_neg (mt List.contains_iff_mem.1 hold)]
      exact ⟨n, by simp [hadd]⟩

variable (hown : updateMethod ∉ Naming.functionNames g p.symbols)

include hown

/-- The first request for a handle is declared, and the next ones change nothing. -/
theorem declarations_add (hl : l.Settled g p) (hx : Fits g p x) (m : String) (h : Handle) :
    ((l.add x).Wants g m h →
      (l.add x).declarations m h = [h.part g.settings.flavor (p.handleName h)]) ∧
    (¬(l.add x).Wants g m h → (l.add x).declarations m h = []) := by
  rcases add_cases l x with ⟨d, rfl, hadd⟩ | ⟨m', k, -, -, hadd⟩ | ⟨k, part, rfl, hnew, hadd⟩ |
    ⟨m', k, part, rfl, hnew, hadd⟩ | ⟨m', n, k, rfl, hnew, hadd⟩
  · rw [hadd]
    exact ⟨hl.once m h, hl.none m h⟩
  · rw [hadd]
    exact ⟨hl.once m h, hl.none m h⟩
  · obtain rfl := hx
    refine hl.declare updateMethod k (by rwa [Wants, if_pos rfl]) (by rw [hadd])
      (fun m h => ?_) m h
    simp only [Wants, asks_add]
    by_cases hm : m = updateMethod
    · simp [hm, Note.Asks]
    · simp [hm, Note.Asks, Ne.symm hm]
  · obtain ⟨hflavor, hmethod, rfl⟩ := hx
    have hother : m' ≠ updateMethod := fun heq => hown (heq ▸ hmethod)
    refine hl.declare m' k
      (by rw [Wants, if_neg hother]; exact fun hasked => hnew hasked.2) (by rw [hadd])
        (fun m h => ?_) m h
    simp only [Wants, asks_add]
    by_cases hm : m = updateMethod
    · simp [hm, Note.Asks, hother]
    · simp [hm, Note.Asks, hflavor]
  · have hwants : (l.add (.foreign m' n k)).Wants g m h ↔ l.Wants g m h := by
      simp only [Wants, asks_add]
      by_cases hm : m = updateMethod
      · simp [hm, Note.Asks]
      · simp [hm, show g.settings.flavor ≠ .managedSystem from hx]
    have hparts : (l.add (.foreign m' n k)).declarations m h = l.declarations m h := by
      rw [hadd]
      rfl
    rw [hwants, hparts]
    exact ⟨hl.once m h, hl.none m h⟩

/-- One note keeps all of it. -/
theorem Settled.add (hl : l.Settled g p) (hx : Fits g p x) : (l.add x).Settled g p where
  once m h := (declarations_add hown hl hx m h).1
  none m h := (declarations_add hown hl hx m h).2
  times m := (others_add hx m).trans (hl.times m)
  functions hflavor := functions_add (hl.functions hflavor) hx hflavor
  reported hflavor := reported_add (hl.reported hflavor) hx hflavor

/-- So it is after any number of notes. -/
theorem Settled.enter (hl : l.Settled g p) (hnotes : ∀ x ∈ notes, Fits g p x) :
    (l.enter notes).Settled g p := by
  induction notes generalizing l with
  | nil => exact hl
  | cons x notes ih =>
    obtain ⟨hx, hrest⟩ := List.forall_mem_cons.1 hnotes
    exact ih (hl.add hown hx) hrest

end Settled

end Ledger

end EntityFlow
