import Mathlib

/-! Fallible steps: a check that stops the program, and runs of such steps. -/
namespace Firebam.Lib
open List

variable {ε : Type u} {σ β : Type v} {γ : Type w} {c : Prop}

universe u v w

variable {α : Type w}

lemma mem_concat {x y : α} {l : List α} : x ∈ l ++ [y] ↔ x ∈ l ∨ x = y := by
  rw [mem_append, mem_singleton]

lemma mem_concat_of_ne {x y : α} {l : List α} (ne : x ≠ y) : x ∈ l ++ [y] ↔ x ∈ l :=
  mem_concat.trans (or_iff_left ne)

lemma forall_mem_concat {P : α → Prop} {y : α} {l : List α} : (∀ x ∈ l ++ [y], P x) ↔ (∀ x ∈ l, P x) ∧ P y := by
  rw [forall_mem_append, forall_mem_singleton]

def require {ε : Type u} (fault : ε) (c : Prop) [Decidable c] : Except ε Unit :=
  if c then .ok () else .error fault

lemma require_of (fault : ε) (c : Prop) [Decidable c] (h : c) : require fault c = .ok () := if_pos h

lemma require_ok {fault : ε} [Decidable c] {x : Unit} : require fault c = .ok x ↔ c := by
  unfold require
  split <;> simp_all

lemma bind_ok {α : Type v} {x : Except ε α} {f : α → Except ε β} {b : β} :
    x >>= f = .ok b ↔ ∃ a, x = .ok a ∧ f a = .ok b := by
  cases x with
  | error e => simp [bind, Except.bind]
  | ok a => simp [bind, Except.bind]

lemma check_ok {β : Type} {fault : ε} [Decidable c]
    {f : Unit → Except ε β} {b : β} : require fault c >>= f = .ok b ↔ c ∧ f () = .ok b := by
  rw [bind_ok]
  constructor
  · rintro ⟨_, hc, hf⟩
    exact ⟨require_ok.mp hc, hf⟩
  · rintro ⟨hc, hf⟩
    exact ⟨(), require_of fault c hc, hf⟩

lemma check_of {β : Type} (fault : ε) [Decidable c] (h : c) (f : Unit → Except ε β) : require fault c >>= f = f () := by
  rw [require_of fault c h]
  rfl

lemma map_ok {α : Type v} {x : Except ε α} {f : α → β} {b : β} : x.map f = .ok b ↔ ∃ a, x = .ok a ∧ f a = b := by
  cases x with
  | error e => simp [Except.map]
  | ok a => simp [Except.map]

/-- Operations executed one after another; the first fault ends the run. -/
def run {ε : Type u} {σ : Type v} {α : Type w} (step : σ → α → Except ε σ) :
    σ → List α → Except ε σ
  | s, [] => .ok s
  | s, a :: as =>
    match step s a with
    | .ok t => run step t as
    | .error e => .error e

section

variable (step : σ → α → Except ε σ)

lemma run_cons_ok {s : σ} {a : α} {as : List α} {r : σ} :
    run step s (a :: as) = .ok r ↔ ∃ t, step s a = .ok t ∧ run step t as = .ok r := by
  simp only [run]
  split
  · rename_i t ht
    simp [ht]
  · rename_i e he
    simp [he]

lemma run_append_ok {s r : σ} {as bs : List α} :
    run step s (as ++ bs) = .ok r ↔ ∃ t, run step s as = .ok t ∧ run step t bs = .ok r := by
  induction as generalizing s with
  | nil =>
    constructor
    · intro h
      exact ⟨s, rfl, h⟩
    · rintro ⟨t, ⟨⟩, h⟩
      exact h
  | cons a as ih =>
    rw [cons_append, run_cons_ok]
    constructor
    · rintro ⟨m, hm, hr⟩
      obtain ⟨t, ht, hb⟩ := ih.mp hr
      exact ⟨t, (run_cons_ok step).mpr ⟨m, hm, ht⟩, hb⟩
    · rintro ⟨t, ht, hb⟩
      obtain ⟨m, hm, hr⟩ := (run_cons_ok step).mp ht
      exact ⟨m, hm, ih.mpr ⟨t, hr, hb⟩⟩

lemma run_append_error {s t : σ} {as bs : List α} {e : ε} (h : run step s as = .ok t)
    (ha : run step t bs = .error e) : run step s (as ++ bs) = .error e := by
  induction as generalizing s with
  | nil => cases h; exact ha
  | cons a as ih =>
    obtain ⟨m, hf, hl⟩ := (run_cons_ok step).mp h
    simp only [cons_append, run, hf]
    exact ih hl

lemma run_preserves (Inv : σ → Prop) (hk : ∀ s a t, Inv s → step s a = .ok t → Inv t) {s r : σ} {as : List α}
    (hs : Inv s) (h : run step s as = .ok r) : Inv r := by
  induction as generalizing s with
  | nil => cases h; exact hs
  | cons a as ih =>
    obtain ⟨t, ht, hr⟩ := (run_cons_ok step).mp h
    exact ih (hk s a t hs ht) hr

end

lemma foldlM_preserves {f : σ → α → Except ε σ} {I : σ → Prop} {l : List α}
    (hk : ∀ s, ∀ a ∈ l, ∀ t, I s → f s a = .ok t → I t) {s r : σ} (hs : I s) (h : l.foldlM f s = .ok r) : I r := by
  induction l generalizing s with
  | nil => cases h; exact hs
  | cons a l ih =>
    rw [foldlM_cons] at h
    obtain ⟨t, hf, hr⟩ := bind_ok.mp h
    refine ih (fun s b hm => hk s b (mem_cons_of_mem a hm)) ?_ hr
    exact hk s a (.head _) t hs hf

lemma forM_ok {α : Type v} {f : α → Except ε PUnit} {l : List α} (h : l.forM f = .ok ⟨⟩) : ∀ a ∈ l, f a = .ok ⟨⟩ := by
  induction l with
  | nil => simp
  | cons a l ih =>
    have h : (f a >>= fun _ => l.forM f) = .ok ⟨⟩ := h
    obtain ⟨_, hf, hr⟩ := bind_ok.mp h
    intro b hm
    rcases mem_cons.mp hm with rfl | hm
    · exact hf
    · exact ih hr b hm

lemma mapM_ok {α : Type v} {f : α → Except ε β} {g : α → β} {l : List α} {r : List β}
    (he : ∀ a ∈ l, ∀ b, f a = .ok b → b = g a) (h : l.mapM f = .ok r) : r = l.map g := by
  induction l generalizing r with
  | nil =>
    rw [mapM_nil] at h
    cases h
    rfl
  | cons a l ih =>
    rw [mapM_cons] at h
    obtain ⟨b, hf, hr⟩ := bind_ok.mp h
    obtain ⟨bs, hl, ho⟩ := bind_ok.mp hr
    cases ho
    rw [he a mem_cons_self b hf, ih (fun x hm => he x (mem_cons_of_mem a hm)) hl, map_cons]

lemma mem_of_mapM {α : Type v} {f : α → Except ε β} {l : List α} {r : List β} {b : β}
    (h : l.mapM f = .ok r) (hx : b ∈ r) : ∃ a ∈ l, f a = .ok b := by
  induction l generalizing r with
  | nil =>
    rw [mapM_nil] at h
    cases h
    cases hx
  | cons a l ih =>
    rw [mapM_cons] at h
    obtain ⟨c, hf, hr⟩ := bind_ok.mp h
    obtain ⟨cs, hl, ho⟩ := bind_ok.mp hr
    cases ho
    rcases mem_cons.mp hx with rfl | hx
    · exact ⟨a, .head _, hf⟩
    · obtain ⟨d, m, hm⟩ := ih hl hx
      exact ⟨d, mem_cons_of_mem a m, hm⟩

def Ends (P : ε → Prop) (Q : β → Prop) : Except ε β → Prop
  | .error e => P e
  | .ok b => Q b

lemma mapM_bounded {α : Type v} {f : α → Except ε β} {P : α → ε → Prop} {p : β → Nat} {w : α → Nat} {l : List α}
    (h : ∀ a ∈ l, Ends (P a) (p · ≤ w a) (f a)) :
    Ends (fun e => ∃ a ∈ l, P a e) (fun bs => (bs.map p).sum ≤ (l.map w).sum) (l.mapM f) := by
  induction l with
  | nil => exact Nat.le_refl 0
  | cons a l ih =>
    have ha := h a mem_cons_self
    have hl := ih fun x hy => h x (mem_cons_of_mem a hy)
    rw [mapM_cons]
    cases hf : f a with
    | error e =>
      rw [hf] at ha
      exact ⟨a, mem_cons_self, ha⟩
    | ok b =>
      rw [hf] at ha
      cases hm : l.mapM f with
      | error e =>
        rw [hm] at hl
        obtain ⟨x, hy, hx⟩ := hl
        exact ⟨x, mem_cons_of_mem a hy, hx⟩
      | ok bs =>
        rw [hm] at hl
        exact Nat.add_le_add ha hl

/-- Operations that the caller may issue in the state they are issued in. -/
def Allowed {ε : Type u} {σ : Type v} {α : Type w} (step : σ → α → Except ε σ)
    (may : σ → α → Prop) : σ → List α → Prop
  | _, [] => True
  | s, a :: as => may s a ∧ match step s a with
    | .ok t => Allowed step may t as
    | .error _ => True

instance decidableAllowed {ε : Type u} {σ : Type v} {α : Type w} (step : σ → α → Except ε σ)
    (may : σ → α → Prop) [∀ s a, Decidable (may s a)] :
    ∀ (s : σ) (as : List α), Decidable (Allowed step may s as)
  | _, [] => inferInstanceAs (Decidable True)
  | s, a :: as =>
    have (r : Except ε σ) : Decidable (match r with
        | .ok t => Allowed step may t as
        | .error _ => True) :=
      match r with
      | .ok t => decidableAllowed step may t as
      | .error _ => inferInstanceAs (Decidable True)
    inferInstanceAs (Decidable (may s a ∧ _))

section
variable (step : σ → α → Except ε σ) (may : σ → α → Prop) (Inv : σ → Prop)
include step may Inv

/-- If every allowed operation succeeds and keeps the invariant, an allowed run never faults
and ends in the invariant. -/
lemma run_allowed (hp : ∀ s a, Inv s → may s a → ∃ t, step s a = .ok t ∧ Inv t) {s : σ} {as : List α}
    (hs : Inv s) (ha : Allowed step may s as) : ∃ r, run step s as = .ok r ∧ Inv r := by
  induction as generalizing s with
  | nil => exact ⟨s, rfl, hs⟩
  | cons a as ih =>
    obtain ⟨t, ht, hi⟩ := hp s a hs ha.1
    have he := ha.2
    rw [ht] at he
    obtain ⟨r, hr, hf⟩ := ih hi he
    exact ⟨r, (run_cons_ok step).mpr ⟨t, ht, hr⟩, hf⟩

lemma run_allowed_preserves (hk : ∀ s a t, Inv s → may s a → step s a = .ok t → Inv t) {s r : σ} {as : List α}
    (hs : Inv s) (ha : Allowed step may s as) (h : run step s as = .ok r) : Inv r := by
  induction as generalizing s with
  | nil => cases h; exact hs
  | cons a as ih =>
    obtain ⟨t, ht, hr⟩ := (run_cons_ok step).mp h
    have he := ha.2
    rw [ht] at he
    exact ih (hk s a t hs ha.1 ht) he hr

end

def faultOf {ε : Type u} {σ : Type v} : Except ε σ → Option ε
  | .ok _ => none
  | .error e => some e

def endsIn {ε : Type u} {σ : Type v} (P : σ → Prop) [DecidablePred P] : Except ε σ → Bool
  | .ok t => decide (P t)
  | .error _ => false

lemma exists_of_endsIn {P : σ → Prop} [DecidablePred P] {x : Except ε σ}
    (he : endsIn P x = true) : ∃ t, x = .ok t ∧ P t := by
  cases x with
  | ok t => exact ⟨t, rfl, of_decide_eq_true he⟩
  | error e => cases he

def Outcome {ε : Type u} {σ : Type v} (good : σ → Prop) (bad : ε → Prop) : Except ε σ → Prop
  | .ok t => good t
  | .error e => bad e

lemma run_allowed_outcome (step : σ → α → Except ε σ) (may : σ → α → Prop) (Inv : σ → Prop) (Fails : ε → Prop)
    (he : ∀ s a, Inv s → may s a → Outcome Inv Fails (step s a)) {s : σ} {as : List α} (ht : Inv s)
    (ha : Allowed step may s as) : Outcome Inv Fails (run step s as) := by
  induction as generalizing s with
  | nil => exact ht
  | cons a as ih =>
    have hn := he s a ht ha.1
    have hr := ha.2
    cases hs : step s a with
    | error e =>
      rw [hs] at hn
      simpa [run, hs] using hn
    | ok t =>
      rw [hs] at hn hr
      simpa [run, hs] using ih hn hr

lemma allowed_and {step : σ → α → Except ε σ} {may must : σ → α → Prop} {s : σ} {as : List α}
    (hf : Allowed step may s as) (he : Allowed step must s as) : Allowed step (fun s a => may s a ∧ must s a) s as := by
  induction as generalizing s with
  | nil => trivial
  | cons a as ih =>
    obtain ⟨ho, hl⟩ := hf
    obtain ⟨hn, ha⟩ := he
    refine ⟨⟨ho, hn⟩, ?_⟩
    cases hs : step s a with
    | error e => trivial
    | ok t =>
      rw [hs] at hl ha
      exact ih hl ha

lemma allowed_front {step : σ → α → Except ε σ}
    {may : σ → α → Prop} {s : σ} {as bs : List α} (ha : Allowed step may s (as ++ bs)) : Allowed step may s as := by
  induction as generalizing s with
  | nil => trivial
  | cons a as ih =>
    obtain ⟨hn, hl⟩ := ha
    refine ⟨hn, ?_⟩
    cases hs : step s a with
    | error e => trivial
    | ok t =>
      simp only [append_eq, hs] at hl
      exact ih hl

lemma allowed_next {step : σ → α → Except ε σ} {may : σ → α → Prop} {s r : σ} {as bs : List α} {a : α}
    (ha : Allowed step may s (as ++ a :: bs)) (h : run step s as = .ok r) : may r a := by
  induction as generalizing s with
  | nil =>
    cases h
    exact ha.1
  | cons b as ih =>
    obtain ⟨t, hs, h⟩ := (run_cons_ok step).mp h
    have hl := ha.2
    simp only [append_eq, hs] at hl
    exact ih hl h

lemma allowed_of_forall {step : σ → α → Except ε σ} {holds : α → Prop}
    {as : List α} (he : ∀ a ∈ as, holds a) (s : σ) : Allowed step (fun _ a => holds a) s as := by
  induction as generalizing s with
  | nil => trivial
  | cons a as ih =>
    refine ⟨he a (.head _), ?_⟩
    cases step s a with
    | error e => trivial
    | ok t => exact ih (fun b hm => he b (.tail _ hm)) t

variable {α : Type v} {P : α → Prop} {Q : β → Prop} {F : ε → Prop} {x : Except ε α}

namespace Outcome

lemma mono {P' : α → Prop} (hk : Outcome P F x) (hw : ∀ a, P a → P' a) : Outcome P' F x := by
  cases x with
  | ok a => exact hw a hk
  | error e => exact hk

lemma of_ok (hk : Outcome P F x) {a : α} (h : x = .ok a) : P a := by
  subst h
  exact hk

lemma bind {f : α → Except ε β} (hf : Outcome P F x) (next : ∀ a, P a → Outcome Q F (f a)) : Outcome Q F (x >>= f) := by
  cases x with
  | ok a => exact next a hf
  | error e => exact hf

lemma chain {f : α → Except ε β} (hf : Outcome (fun _ => True) F x)
    (hn : ∀ a, x = .ok a → Outcome Q F (f a)) : Outcome Q F (x >>= f) := by
  cases x with
  | ok a => exact hn a rfl
  | error e => exact hf

lemma map {f : α → β} (hf : Outcome (fun a => Q (f a)) F x) : Outcome Q F (f <$> x) := by
  cases x with
  | ok a => exact hf
  | error e => exact hf

lemma check {β : Type} {Q : β → Prop} {fault : ε} [Decidable c] {f : Unit → Except ε β}
    (hb : ¬ c → F fault) (hn : c → Outcome Q F (f ())) : Outcome Q F (require fault c >>= f) := by
  by_cases hh : c
  · rw [check_of fault hh]
    exact hn hh
  · unfold require
    rw [if_neg hh]
    exact hb hh

lemma foldlM {I : σ → Prop} {f : σ → γ → Except ε σ} {l : List γ} {s : σ}
    (hs : I s) (he : ∀ s c, c ∈ l → I s → Outcome I F (f s c)) : Outcome I F (l.foldlM f s) := by
  induction l generalizing s with
  | nil => exact hs
  | cons c rest ih =>
    rw [foldlM_cons]
    refine (he s c (.head _) hs).bind fun t hk => ih hk ?_
    exact fun s c hm => he s c (.tail _ hm)

end Outcome

lemma foldlM_eq_run (step : σ → γ → Except ε σ) (l : List γ) (s : σ) : l.foldlM step s = run step s l := by
  induction l generalizing s with
  | nil => rfl
  | cons c rest ih =>
    rw [foldlM_cons, run]
    cases step s c with
    | ok t => exact ih t
    | error e => rfl

end Firebam.Lib
