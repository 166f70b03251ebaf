import Mathlib.Logic.Equiv.Basic
import Mathlib.Data.Prod.Basic

/-!
# Feistel networks

A network over any half-block type with a self-cancelling mixing operation and
any round function. The round function need not be invertible.
-/
namespace FeistelNetwork

variable {α β κ ι : Type}

section Network

variable (mix : α → α → α) (f : α → κ → α)

/-- `L' = R`, `R' = L mix f(R, k)`. -/
def round (p : α × α) (k : κ) : α × α := (p.2, mix p.1 (f p.2 k))

def network (keys : List κ) (p : α × α) : α × α := keys.foldl (round mix f) p

@[simp] theorem network_nil (p : α × α) : network mix f [] p = p := rfl

@[simp] theorem network_cons (k : κ) (keys : List κ) (p : α × α) :
    network mix f (k :: keys) p = network mix f keys (round mix f p k) := rfl

theorem network_append (first second : List κ) (p : α × α) :
    network mix f (first ++ second) p = network mix f second (network mix f first p) :=
  List.foldl_append

end Network

section Inverse

variable {mix : α → α → α} (cancel : ∀ a b, mix (mix a b) b = a) (f : α → κ → α)

include cancel

/-- A round applied to its swapped output gives the swapped input. -/
theorem round_swap_round (p : α × α) (k : κ) :
    round mix f (round mix f p k).swap k = p.swap := by
  obtain ⟨left, right⟩ := p
  simp [round, cancel]

/-- Running the keys backwards between two swaps undoes the network. -/
theorem network_reverse (keys : List κ) (p : α × α) :
    network mix f keys.reverse (network mix f keys p).swap = p.swap := by
  induction keys generalizing p with
  | nil => rfl
  | cons k keys ih =>
    rw [network_cons, List.reverse_cons, network_append, ih]
    exact round_swap_round cancel f p k

/-- The network as a permutation of the pairs of half-blocks. -/
def networkPerm (keys : List κ) : Equiv.Perm (α × α) where
  toFun := network mix f keys
  invFun q := (network mix f keys.reverse q.swap).swap
  left_inv p := by
    simp only [network_reverse cancel, Prod.swap_swap]
  right_inv q := by
    have h := network_reverse cancel f keys.reverse q.swap
    rw [List.reverse_reverse, Prod.swap_swap] at h
    exact h

@[simp] theorem networkPerm_apply (keys : List κ) (p : α × α) :
    networkPerm cancel f keys p = network mix f keys p := rfl

end Inverse

/-- A map that commutes with one round commutes with the network. -/
theorem network_map {mix : α → α → α} {f : α → κ → α} {mix' : β → β → β} {f' : β → ι → β}
    (g : α → β) (h : κ → ι)
    (commutes : ∀ a b k, g (mix a (f b k)) = mix' (g a) (f' (g b) (h k)))
    (keys : List κ) (p : α × α) :
    network mix' f' (keys.map h) (p.map g g) = (network mix f keys p).map g g := by
  induction keys generalizing p with
  | nil => rfl
  | cons k keys ih =>
    have hround : round mix' f' (p.map g g) (h k) = (round mix f p k).map g g := by
      simp [round, Prod.map, commutes]
    rw [List.map_cons, network_cons, network_cons, hround, ih]

/-- A network whose second half runs the keys of the first backwards under a symmetry of
the rounds takes `p` to its swapped image exactly when the registers in the middle are
images of each other. -/
theorem network_mirrored_iff {mix : α → α → α} (cancel : ∀ a b, mix (mix a b) b = a)
    (f : α → κ → α) (g : α → α) (h : κ → κ)
    (commutes : ∀ a b k, g (mix a (f b k)) = mix (g a) (f (g b) (h k)))
    (keys : List κ) (p : α × α) :
    (network mix f (keys ++ keys.reverse.map h) p).swap = p.map g g ↔
      network mix f keys p = (network mix f keys p).swap.map g g := by
  have hback : network mix f (keys.reverse.map h) ((network mix f keys p).swap.map g g) =
      (p.map g g).swap := by
    rw [network_map g h commutes, network_reverse cancel]
    rfl
  rw [network_append, Prod.swap_eq_iff_eq_swap, ← hback]
  exact (networkPerm cancel f _).injective.eq_iff

end FeistelNetwork
