import Mathlib

/-! A map with changes laid over it one after another: a change of a key replaces or removes what is
below. -/
namespace Firebam.Lib
open List

section
variable {κ δ ι : Type}

section
variable (base : κ → Option δ)

def override (change : κ → Option (Option δ)) : κ → Option δ := fun k => (change k).getD (base k)

def overlay (changes : List (κ → Option (Option δ))) : κ → Option δ := changes.foldl override base

lemma overlay_append (front back : List (κ → Option (Option δ))) :
    overlay base (front ++ back) = overlay (overlay base front) back := foldl_append

end

variable [DecidableEq κ] {key : ι → κ} {value : ι → Option δ}

lemma foldl_update (l : List ι) (base : κ → Option δ) (hd : (l.map key).Nodup) :
    l.foldl (fun m x => Function.update m (key x) (value x)) base =
      override base fun k => (l.find? fun x => key x = k).map value := by
  induction l generalizing base with
  | nil => rfl
  | cons x rest ih =>
    rw [map_cons, nodup_cons] at hd
    rw [foldl_cons, ih _ hd.2]
    funext k
    unfold override
    dsimp only
    rw [find?_cons]
    by_cases hh : key x = k
    · have none : (rest.find? fun x => decide (key x = k)) = none := by
        rw [find?_eq_none]
        intro y hm hs
        refine hd.1 (mem_map.mpr ⟨y, hm, ?_⟩)
        rw [of_decide_eq_true hs, hh]
      rw [none, decide_eq_true hh, ← hh]
      simp
    · rw [decide_eq_false hh, Function.update_of_ne (Ne.symm hh)]

end

variable {ι μ : Type} [AddCommMonoid μ] {f g : ι → μ} {l : List ι} {i : ι}

lemma sum_change [DecidableEq ι] (nd : l.Nodup) (hm : i ∈ l) (ho : ∀ j ∈ l, j ≠ i → f j = g j) :
    (l.map f).sum + g i = (l.map g).sum + f i := by
  have hp := perm_cons_erase hm
  have hr : (l.erase i).map f = (l.erase i).map g := by
    refine map_congr_left fun j hh => ?_
    rw [nd.mem_erase_iff] at hh
    exact ho j hh.2 hh.1
  rw [(hp.map f).sum_eq, (hp.map g).sum_eq, map_cons, map_cons, sum_cons, sum_cons, hr]
  abel

lemma sum_filterMap {α : Type} (l : List ι) (f : ι → Option α) (g : α → μ) :
    ((l.filterMap f).map g).sum = (l.map fun i => (f i).elim 0 g).sum := by
  induction l with
  | nil => rfl
  | cons i rest ih =>
    rw [map_cons, sum_cons, ← ih]
    cases hh : f i with
    | none =>
      rw [filterMap_cons_none hh, Option.elim_none, zero_add]
    | some a =>
      rw [filterMap_cons_some hh, map_cons, sum_cons, Option.elim_some]

lemma countP_change {p q : Nat → Bool} {l : List Nat} {i : Nat} (nd : l.Nodup) (hm : i ∈ l)
    (ho : ∀ j, j ≠ i → p j = q j) : l.countP p + (if q i then 1 else 0) = l.countP q + if p i then 1 else 0 := by
  have hp := perm_cons_erase hm
  have hr : (l.erase i).countP p = (l.erase i).countP q := by
    refine countP_congr fun j hh => ?_
    rw [ho j (nd.mem_erase_iff.mp hh).1]
  rw [hp.countP_eq p, hp.countP_eq q, countP_cons, countP_cons, hr]
  omega

end Firebam.Lib
