import Mathlib.SetTheory.Cardinal.Finite

/-! # Fibers

A function of two arguments that is a bijection in the second one, whatever the first one is, takes
every value equally often: once for each first argument (`card_fiber`). This is so for whatever
splits into two such arguments (`card_fiber_split`), and what is made of the values by an injection
is taken as often as the values are (`card_fiber_through`). -/

namespace Hayahash.Lib.Fibers

open Function

variable {α β γ δ κ : Type*} {f : α → β → γ}

/-- The pairs that are taken to `c` are known by their first components. -/
noncomputable def fiberEquiv (hf : ∀ a, Bijective (f a)) (c : γ) :
    {p : α × β // f p.1 p.2 = c} ≃ α where
  toFun p := p.1.1
  invFun a :=
    ⟨(a, (Equiv.ofBijective _ (hf a)).symm c), Equiv.ofBijective_apply_symm_apply _ (hf a) c⟩
  left_inv := by
    rintro ⟨⟨a, b⟩, rfl⟩
    exact Subtype.ext (Prod.ext rfl (Equiv.ofBijective_symm_apply_apply _ (hf a) b))
  right_inv _ := rfl

/-- **Every value is taken once for each first argument.** -/
theorem card_fiber (hf : ∀ a, Bijective (f a)) (c : γ) :
    Nat.card {p : α × β // f p.1 p.2 = c} = Nat.card α := Nat.card_congr (fiberEquiv hf c)

theorem card_fiber_split (e : κ ≃ α × β) {g : κ → γ}
    (hg : ∀ a, Bijective fun b => g (e.symm (a, b)))
    (c : γ) : Nat.card {k // g k = c} = Nat.card α := by
  rw [← card_fiber hg c]
  refine Nat.card_congr (e.subtypeEquiv fun k => ?_)
  rw [Prod.mk.eta, Equiv.symm_apply_apply]

theorem card_fiber_through (hf : ∀ a, Bijective (f a)) {g : γ → δ} (hg : Injective g) (c : γ) :
    Nat.card {p : α × β // g (f p.1 p.2) = g c} = Nat.card α := by
  rw [← card_fiber hf c]
  exact Nat.card_congr (Equiv.subtypeEquivRight fun p => hg.eq_iff)

theorem card_range_through [Nonempty α] (hf : ∀ a, Bijective (f a)) {g : γ → δ} (hg : Injective g) :
    Nat.card (Set.range fun p : α × β => g (f p.1 p.2)) = Nat.card γ := by
  have hsurj : Surjective fun p : α × β => f p.1 p.2 := fun c => by
    obtain ⟨b, hb⟩ := (hf (Classical.arbitrary α)).2 c
    exact ⟨(_, b), hb⟩
  rw [show (fun p : α × β => g (f p.1 p.2)) = g ∘ fun p => f p.1 p.2 from rfl, hsurj.range_comp]
  exact Nat.card_range_of_injective hg

end Hayahash.Lib.Fibers
