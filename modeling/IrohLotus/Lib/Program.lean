/-
Programs over a store as trees of atomic operations, so that one definition can be run to its end,
stopped after any number of operations (a crash), or made to fail at any one of them. `Leads C p s
q t` is symbolic execution with a crash condition: `p` run from `s` comes to `q` in `t`, and `C`
holds of the store wherever it is stopped on the way.
-/
import IrohLotus.Lib.Outcome

namespace Outcome

/-- A program over `σ`: finished, or an atomic operation and what follows its answer. -/
inductive Prog (σ E α : Type) : Type 1 where
  | done (r : Res E α) : Prog σ E α
  | op {β : Type} (f : σ → β × σ) (next : β → Prog σ E α) : Prog σ E α

namespace Prog

variable {σ E α β : Type}

def bind : Prog σ E α → (α → Prog σ E β) → Prog σ E β
  | done (.ok a), f => f a
  | done (.error h), _ => done (.error h)
  | op g next, f => op g fun b => (next b).bind f

instance : Monad (Prog σ E) where
  pure a := done (.ok a)
  bind := bind

/-- One atomic operation. -/
def step (f : σ → α × σ) : Prog σ E α := op f pure

/-- One atomic operation that only reads. -/
def read (f : σ → α) : Prog σ E α := step fun s => (f s, s)

/-- One atomic operation that only writes. -/
def write (f : σ → σ) : Prog σ E Unit := step fun s => ((), f s)

def fail (e : E) : Prog σ E α := done (Res.fail e)

def hang : Prog σ E α := done (.error .hang)

/-- The complete run. -/
def run : Prog σ E α → σ → Res E α × σ
  | done r, s => (r, s)
  | op f next, s => run (next (f s).1) (f s).2

/-- How many operations the complete run performs. -/
def count : Prog σ E α → σ → Nat
  | done _, _ => 0
  | op f next, s => count (next (f s).1) (f s).2 + 1

/-- The store after the first `n` operations, or at the end if there are fewer. -/
def stop : Nat → Prog σ E α → σ → σ
  | _, done _, s => s
  | 0, op _ _, s => s
  | n + 1, op f next, s => stop n (next (f s).1) (f s).2

/-- The run in which operation number `n` (from zero) fails with `e` and is not performed. -/
def failing (n : Nat) (e : E) (p : Prog σ E α) (s : σ) : Res E α × σ :=
  if n < p.count s then (Res.fail e, p.stop n s) else p.run s

/-! ## How the runs compose -/

theorem run_bind (p : Prog σ E α) (f : α → Prog σ E β) (s : σ) :
    (p >>= f).run s = match p.run s with
      | (.ok a, s') => (f a).run s'
      | (.error h, s') => (.error h, s') := by
  induction p generalizing s with
  | done r => cases r <;> rfl
  | op g next ih => exact ih (g s).1 (g s).2

theorem count_bind (p : Prog σ E α) (f : α → Prog σ E β) (s : σ) :
    (p >>= f).count s = p.count s + match p.run s with
      | (.ok a, s') => (f a).count s'
      | (.error _, _) => 0 := by
  induction p generalizing s with
  | done r => cases r <;> simp [Bind.bind, bind, count, run]
  | op g next ih =>
    have := ih (g s).1 (g s).2
    simp only [Bind.bind, bind, count, run] at this ⊢
    omega

theorem stop_zero (p : Prog σ E α) (s : σ) : p.stop 0 s = s := by cases p <;> rfl

/-- Up to its last operation, a program is stopped as if nothing followed it. -/
theorem stop_bind (p : Prog σ E α) (f : α → Prog σ E β) (n : Nat) (s : σ) (h : n ≤ p.count s) :
    (p >>= f).stop n s = p.stop n s := by
  induction p generalizing s n with
  | done r =>
    obtain rfl : n = 0 := Nat.le_zero.1 h
    cases r with
    | ok a => exact stop_zero (f a) s
    | error halt => rfl
  | op g next ih =>
    cases n with
    | zero => rfl
    | succ n => exact ih (g s).1 n (g s).2 (Nat.le_of_succ_le_succ h)

/-- Stopping after the last operation is the complete run. -/
theorem stop_count (p : Prog σ E α) (s : σ) : p.stop (p.count s) s = (p.run s).2 := by
  induction p generalizing s with
  | done r => rfl
  | op g next ih => exact ih (g s).1 (g s).2

theorem stop_pure (a : α) (n : Nat) (s : σ) : (pure a : Prog σ E α).stop n s = s := by cases n <;> rfl

/-! ## Symbolic execution -/

/-- From `s`, `p` comes to `q` in the store `t`, and until then every store it can be stopped in is
in `C`. -/
structure Leads (C : σ → Prop) (p : Prog σ E α) (s : σ) (q : Prog σ E α) (t : σ) : Prop where
  run : p.run s = q.run t
  stop : ∀ n, C (p.stop n s) ∨ ∃ m, p.stop n s = q.stop m t

namespace Leads

variable {C C' : σ → Prop} {p q r : Prog σ E α} {s t u : σ}

theorem refl : Leads C p s p s := ⟨rfl, fun n => .inr ⟨n, rfl⟩⟩

theorem trans (h : Leads C p s q t) (h' : Leads C q t r u) : Leads C p s r u := by
  refine ⟨h.run.trans h'.run, fun n => ?_⟩
  rcases h.stop n with hc | ⟨m, hm⟩
  · exact .inl hc
  · rw [hm]; exact h'.stop m

theorem weaken (h : Leads C p s q t) (hC : ∀ s, C s → C' s) : Leads C' p s q t :=
  ⟨h.run, fun n => (h.stop n).imp_left (hC _)⟩

/-- One operation. -/
theorem op {f : σ → β × σ} {next : β → Prog σ E α} (hs : C s) : Leads C (op f next) s (next (f s).1) (f s).2 := by
  refine ⟨rfl, fun n => ?_⟩
  cases n with
  | zero => exact .inl hs
  | succ n => exact .inr ⟨n, rfl⟩

/-- A program run to its value, and what follows it. -/
theorem bind {a : α} {f : α → Prog σ E β} (h : Leads C p s (pure a) t) : Leads C (p >>= f) s (f a) t := by
  induction p generalizing s with
  | done r =>
    cases h.run
    exact refl
  | op g next ih =>
    have hnext : Leads C (next (g s).1) (g s).2 (pure a) t := ⟨h.run, fun n => h.stop (n + 1)⟩
    have hrest := ih (g s).1 hnext
    refine ⟨hrest.run, fun n => ?_⟩
    cases n with
    | zero =>
      rcases h.stop 0 with hc | ⟨m, hm⟩
      · exact .inl hc
      · refine .inr ⟨0, ?_⟩
        rw [stop_zero] at hm ⊢
        rw [stop_zero, hm, stop_pure]
    | succ n => exact hrest.stop n

/-- One operation that only reads, and what follows it. -/
theorem read_bind {g : σ → α} {f : α → Prog σ E β} (hs : C s) : Leads C (read g >>= f) s (f (g s)) s := op hs

/-- One operation that only writes, and what follows it. -/
theorem write_bind {g : σ → σ} {f : Unit → Prog σ E β} (hs : C s) : Leads C (write g >>= f) s (f ()) (g s) := op hs

/-- A program that comes to its value was run to its end, and stopped only in `C` or at its end. -/
theorem done {a : α} (h : Leads C p s (pure a) t) : p.run s = (.ok a, t) ∧ ∀ n, C (p.stop n s) ∨ p.stop n s = t := by
  refine ⟨h.run, fun n => (h.stop n).imp_right ?_⟩
  rintro ⟨m, hm⟩
  rw [hm, stop_pure]

end Leads

end Prog

end Outcome
