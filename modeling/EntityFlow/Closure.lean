/-! # Reachability within a finite list

`closure domain next start` holds the members of `domain` that lead back to `start` through `next`.
It contains the start, it is closed under `next`, and it is the least such list. -/

namespace EntityFlow

variable {α : Type} [DecidableEq α]

/-- One round of growth: the members of `domain` that are in `s` or one step from it. -/
def grow (domain : List α) (next : α → List α) (s : List α) : List α :=
  let frontier := s.flatMap next
  domain.filter fun a => s.contains a || frontier.contains a

/-- Grow until nothing is added, for at most `rounds` rounds. -/
def saturate (domain : List α) (next : α → List α) : (rounds : Nat) → List α → List α
  | 0, s => s
  | rounds + 1, s =>
      let grown := grow domain next s
      if grown = s then s else saturate domain next rounds grown

/-- The members of `domain` reached from `start` by `next`, in the order of `domain`. A round that
adds nothing is the last, so there are no more rounds than members. -/
def closure (domain : List α) (next : α → List α) (start : List α) : List α :=
  saturate domain next (domain.length + 1) (domain.filter start.contains)

/-! ## Laws -/

variable {domain : List α} {next : α → List α} {start s : List α} {a b : α}

/-- One round keeps what it has and adds the successors that belong to the domain. -/
theorem mem_grow : a ∈ grow domain next s ↔ a ∈ domain ∧ (a ∈ s ∨ ∃ b ∈ s, a ∈ next b) := by
  simp [grow, List.mem_filter, List.mem_flatMap]

/-- Lists that keep the order of `domain`. -/
private def IsPart (domain s : List α) : Prop := s = domain.filter s.contains

private theorem isPart_filter (p : α → Bool) : IsPart domain (domain.filter p) := by
  refine List.filter_congr fun a ha => ?_
  by_cases hp : p a = true <;> simp [List.mem_filter, ha, hp]

/-- A part can be read off from the round that follows it. -/
private theorem IsPart.eq_filter_grow (h : IsPart domain s) :
    s = (grow domain next s).filter s.contains := by
  rw [grow, List.filter_filter]
  refine Eq.trans h (List.filter_congr fun a _ => ?_)
  cases s.contains a <;> rfl

/-- A round that changes something makes the part longer. -/
private theorem IsPart.length_lt_grow (h : IsPart domain s) (hne : grow domain next s ≠ s) :
    s.length < (grow domain next s).length := by
  have hsub : s.Sublist (grow domain next s) := by
    have hf : ((grow domain next s).filter s.contains).Sublist (grow domain next s) :=
      List.filter_sublist
    rwa [← h.eq_filter_grow] at hf
  refine Nat.lt_of_le_of_ne hsub.length_le fun hlen => hne ?_
  exact (hsub.eq_of_length hlen).symm

/-- There are no more rounds to make than the domain has elements to add. -/
private theorem grow_saturate (rounds : Nat) (h : IsPart domain s)
    (hr : domain.length < rounds + s.length) :
    grow domain next (saturate domain next rounds s) = saturate domain next rounds s := by
  induction rounds generalizing s with
  | zero =>
    have hle : s.length ≤ domain.length := by rw [h]; exact List.length_filter_le ..
    omega
  | succ rounds ih =>
    by_cases hg : grow domain next s = s
    · simp [saturate, hg]
    · have hlt := h.length_lt_grow hg
      simp only [saturate, hg, if_false]
      exact ih (isPart_filter _) (by omega)

/-- The closure is a fixed point. -/
private theorem grow_closure :
    grow domain next (closure domain next start) = closure domain next start :=
  grow_saturate _ (isPart_filter _) (by omega)

private theorem subset_saturate (rounds : Nat) (hs : ∀ a ∈ s, a ∈ domain) (ha : a ∈ s) :
    a ∈ saturate domain next rounds s := by
  induction rounds generalizing s with
  | zero => exact ha
  | succ rounds ih =>
    simp only [saturate]
    split
    · exact ha
    · exact ih (fun b hb => (mem_grow.1 hb).1) (mem_grow.2 ⟨hs a ha, .inl ha⟩)

theorem mem_closure_of_mem (hd : a ∈ domain) (hs : a ∈ start) : a ∈ closure domain next start :=
  subset_saturate _ (fun _ hb => (List.mem_filter.1 hb).1) (List.mem_filter.2 ⟨hd, by simpa⟩)

/-- The closure contains the successors of its elements. -/
theorem mem_closure_of_next (hd : a ∈ domain) (hb : b ∈ closure domain next start)
    (h : a ∈ next b) : a ∈ closure domain next start := by
  rw [← grow_closure]
  exact mem_grow.2 ⟨hd, .inr ⟨b, hb, h⟩⟩

/-- What holds at the start and passes to successors holds of everything that is collected. -/
private theorem saturate_induction {p : α → Prop} (rounds : Nat) (hs : ∀ a ∈ s, p a)
    (hn : ∀ b, p b → ∀ a ∈ next b, a ∈ domain → p a) :
    ∀ a ∈ saturate domain next rounds s, p a := by
  induction rounds generalizing s with
  | zero => exact hs
  | succ rounds ih =>
    simp only [saturate]
    split
    · exact hs
    · refine ih fun a ha => ?_
      obtain ⟨hd, h | ⟨b, hb, h⟩⟩ := mem_grow.1 ha
      · exact hs a h
      · exact hn b (hs b hb) a h hd

/-- What holds of the start and passes along every step holds of the closure. -/
theorem closure_induction {p : α → Prop} (hs : ∀ a ∈ start, a ∈ domain → p a)
    (hn : ∀ b, p b → ∀ a ∈ next b, a ∈ domain → p a) : ∀ a ∈ closure domain next start, p a := by
  refine saturate_induction _ (fun a ha => ?_) hn
  have h := List.mem_filter.1 ha
  exact hs a (by simpa using h.2) h.1

end EntityFlow
