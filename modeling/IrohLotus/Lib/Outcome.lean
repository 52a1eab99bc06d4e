/-
Fallible code over a store it may write: what a call can end in (`Halt`), computations that only
read (`Res`), and computations that read and write (`Action`), whose writes stand even when the
call ends in an error.
-/
import Mathlib

namespace Outcome

/-- How a call can fail to return a value: it returned an error, it panicked, or a loop of it was
still running when its fuel ran out. -/
inductive Halt (E : Type) where
  | error (e : E)
  | panic (message : String)
  | hang
deriving DecidableEq

section Except

variable {ε α β : Type}

theorem except_bind_eq_ok {x : Except ε α} {f : α → Except ε β} {b : β} (h : x >>= f = .ok b) :
    ∃ a, x = .ok a ∧ f a = .ok b := by
  cases x with
  | ok a => exact ⟨a, rfl, h⟩
  | error e => cases h

/-- Collecting results goes through where each of them does. -/
theorem except_of_toOption_some {r : Except ε α} {a : α} (h : r.toOption = some a) : r = .ok a := by
  cases r with
  | ok b => cases h; rfl
  | error e => cases h

theorem except_of_toOption_none {r : Except ε α} (h : r.toOption = none) : ∃ e, r = .error e := by
  cases r with
  | ok b => cases h
  | error e => exact ⟨e, rfl⟩

theorem except_mapM_iff {f : α → Except ε β} : ∀ {l : List α} {r : List β},
    l.mapM f = .ok r ↔ List.Forall₂ (fun a b => f a = .ok b) l r
  | [], r => by
    rw [List.forall₂_nil_left_iff, List.mapM_nil]
    exact ⟨fun h => (Except.ok.inj h).symm, fun h => h ▸ rfl⟩
  | a :: l, r => by
    rw [List.mapM_cons, List.forall₂_cons_left_iff]
    constructor
    · intro h
      obtain ⟨b, hb, h⟩ := except_bind_eq_ok h
      obtain ⟨bs, hbs, h⟩ := except_bind_eq_ok h
      cases h
      exact ⟨b, bs, hb, except_mapM_iff.1 hbs, rfl⟩
    · rintro ⟨b, bs, hb, hbs, rfl⟩
      rw [hb, except_mapM_iff.2 hbs]
      rfl

/-- What a traversal collects is what its elements gave. -/
theorem except_mapM_mem {f : α → Except ε β} : ∀ {l : List α} {r : List β}, l.mapM f = .ok r →
    ∀ {b : β}, b ∈ r ↔ ∃ a ∈ l, f a = .ok b
  | [], r, h, b => by
    cases h
    simp
  | a :: l, r, h, b => by
    rw [List.mapM_cons] at h
    obtain ⟨b', hb', h⟩ := except_bind_eq_ok h
    obtain ⟨bs, hbs, h⟩ := except_bind_eq_ok h
    cases h
    rw [List.mem_cons, except_mapM_mem hbs, List.exists_mem_cons_iff, hb', Except.ok.injEq, eq_comm]

theorem except_mapM_isOk {f : α → Except ε β} : ∀ {l : List α}, (∃ r, l.mapM f = .ok r) ↔ ∀ a ∈ l, ∃ b, f a = .ok b
  | [] => by
    rw [List.mapM_nil]
    exact ⟨fun _ => nofun, fun _ => ⟨[], rfl⟩⟩
  | a :: l => by
    rw [List.forall_mem_cons, ← except_mapM_isOk (l := l)]
    simp only [except_mapM_iff, List.forall₂_cons_left_iff]
    constructor
    · rintro ⟨r, b, bs, hb, hbs, -⟩
      exact ⟨⟨b, hb⟩, bs, hbs⟩
    · rintro ⟨⟨b, hb⟩, bs, hbs⟩
      exact ⟨b :: bs, b, bs, hb, hbs, rfl⟩

end Except

/-- The outcome of a call that writes nothing. -/
abbrev Res (E α : Type) := Except (Halt E) α

namespace Res

variable {E E' α β : Type}

/-- Returns an error. -/
def fail (e : E) : Res E α := .error (.error e)

/-- `Option::expect`. -/
def expect (o : Option α) (message : String) : Res E α :=
  match o with
  | some a => .ok a
  | none => .error (.panic message)

/-- `Option::ok_or`. -/
def okOr (o : Option α) (e : E) : Res E α :=
  match o with
  | some a => .ok a
  | none => fail e

/-- The `?` operator on a plain `Result`, converting its error. -/
def ofExcept (f : E' → E) : Except E' α → Res E α
  | .ok a => .ok a
  | .error e => fail (f e)

/-- `Result::map_err`: a panic stays a panic. -/
def mapErr (f : E → E') : Res E α → Res E' α
  | .ok a => .ok a
  | .error (.error e) => .error (.error (f e))
  | .error (.panic message) => .error (.panic message)
  | .error .hang => .error .hang

@[simp] theorem expect_some (a : α) (message : String) : expect (E := E) (some a) message = .ok a := rfl
@[simp] theorem okOr_some (a : α) (e : E) : okOr (some a) e = .ok a := rfl
@[simp] theorem ofExcept_ok (f : E' → E) (a : α) : ofExcept f (.ok a) = (.ok a : Res E α) := rfl
@[simp] theorem mapErr_ok (f : E → E') (a : α) : mapErr f (.ok a : Res E α) = .ok a := rfl

@[simp] theorem ok_bind (a : α) (f : α → Res E β) : ((.ok a : Res E α) >>= f) = f a := rfl
@[simp] theorem error_bind (h : Halt E) (f : α → Res E β) : ((.error h : Res E α) >>= f) = .error h := rfl

theorem bind_eq_ok {x : Res E α} {f : α → Res E β} {b : β} (h : x >>= f = .ok b) :
    ∃ a, x = .ok a ∧ f a = .ok b := by
  cases x with
  | ok a => exact ⟨a, rfl, h⟩
  | error e => cases h

theorem expect_eq_ok {o : Option α} {message : String} {a : α} (h : expect (E := E) o message = .ok a) : o = some a := by
  cases o with
  | none => cases h
  | some b => cases h; rfl

theorem okOr_eq_ok {o : Option α} {e : E} {a : α} (h : okOr o e = .ok a) : o = some a := by
  cases o with
  | none => cases h
  | some b => cases h; rfl

theorem ofExcept_eq_ok {f : E' → E} {r : Except E' α} {a : α} (h : ofExcept f r = .ok a) : r = .ok a := by
  cases r with
  | error e => cases h
  | ok b => cases h; rfl

theorem mapErr_eq_ok {f : E → E'} {x : Res E α} {a : α} (h : mapErr f x = .ok a) : x = .ok a := by
  cases x with
  | ok b => simpa using h
  | error e => cases e <;> cases h

theorem forM_eq_ok {f : α → Res E Unit} : ∀ {l : List α}, l.forM f = .ok () → ∀ a ∈ l, f a = .ok ()
  | [], _, a, ha => by cases ha
  | b :: l, h, a, ha => by
    rw [List.forM_eq_forM, List.forM_cons] at h
    obtain ⟨_, hb, h⟩ := bind_eq_ok h
    rcases List.mem_cons.1 ha with rfl | ha
    · exact hb
    · exact forM_eq_ok h a ha

theorem forM_of_ok {f : α → Res E Unit} : ∀ {l : List α}, (∀ a ∈ l, f a = .ok ()) → l.forM f = .ok ()
  | [], _ => rfl
  | b :: l, h => by
    rw [List.forM_eq_forM, List.forM_cons, h b List.mem_cons_self, ok_bind]
    exact forM_of_ok fun a ha => h a (List.mem_cons_of_mem _ ha)

theorem mapM_of_ok {f : α → Res E β} {g : α → β} : ∀ {l : List α}, (∀ a ∈ l, f a = .ok (g a)) → l.mapM f = .ok (l.map g)
  | [], _ => rfl
  | a :: l, h => by
    rw [List.mapM_cons, h a List.mem_cons_self, ok_bind, mapM_of_ok fun b hb => h b (List.mem_cons_of_mem _ hb), ok_bind]
    rfl

/-- Two calls end alike: both return, with values related by `P`, or both panic. -/
def Sim (P : α → β → Prop) : Res E α → Res E' β → Prop
  | .ok a, .ok b => P a b
  | .error (.panic _), .error (.panic _) => True
  | _, _ => False

theorem Sim.bind {γ δ : Type} {P : α → β → Prop} {Q : γ → δ → Prop} {x : Res E α} {y : Res E' β} {f : α → Res E γ}
    {g : β → Res E' δ} (h : Sim P x y) (hfg : ∀ a b, P a b → Sim Q (f a) (g b)) : Sim Q (x >>= f) (y >>= g) := by
  rcases x with (_ | _ | _) | a <;> rcases y with (_ | _ | _) | b <;> try exact h.elim
  · exact h
  · exact hfg a b h

theorem Sim.mono {P Q : α → β → Prop} {x : Res E α} {y : Res E' β} (h : Sim P x y) (hPQ : ∀ a b, P a b → Q a b) :
    Sim Q x y := by
  rcases x with (_ | _ | _) | a <;> rcases y with (_ | _ | _) | b <;> try exact h.elim
  · exact h
  · exact hPQ a b h

/-- A call that ends like one of two that end the same ends like the other. -/
theorem Sim.trans_eq {E'' : Type} {P : α → β → Prop} {x : Res E α} {y : Res E' β} {z : Res E'' β} (h : Sim P x y)
    (h' : Sim (· = ·) y z) : Sim P x z := by
  rcases x with (_ | _ | _) | a <;> rcases y with (_ | _ | _) | b <;> try exact h.elim
  · rcases z with (_ | _ | _) | c <;> exact h'
  · rcases z with (_ | _ | _) | c <;> try exact h'.elim
    have hbc : b = c := h'
    subst hbc
    exact h

/-- A call that ends like one that returned has returned. -/
theorem Sim.of_ok {P : α → β → Prop} {x : Res E α} {b : β} (h : Sim P x (.ok b : Res E' β)) : ∃ a, x = .ok a ∧ P a b := by
  rcases x with (_ | _ | _) | a
  · exact h.elim
  · exact h.elim
  · exact h.elim
  · exact ⟨a, rfl, h⟩

theorem Sim.of_ok_left {P : α → β → Prop} {a : α} {y : Res E' β} (h : Sim P (.ok a : Res E α) y) : ∃ b, y = .ok b ∧ P a b := by
  rcases y with (_ | _ | _) | b
  · exact h.elim
  · exact h.elim
  · exact h.elim
  · exact ⟨b, rfl, h⟩

/-- The call returned, a value or an error in `P`: it neither panicked nor ran on. -/
def Returns (P : E → Prop) : Res E α → Prop
  | .ok _ => True
  | .error (.error e) => P e
  | .error (.panic _) | .error .hang => False

variable {P : E → Prop}

theorem returns_ok (a : α) : Returns P (.ok a : Res E α) := trivial

theorem returns_fail {e : E} (h : P e) : Returns P (fail e : Res E α) := h

theorem returns_okOr (o : Option α) {e : E} (h : P e) : Returns P (okOr o e) := by
  cases o with
  | none => exact h
  | some a => trivial

theorem returns_ofExcept {f : E' → E} (h : ∀ e, P (f e)) (r : Except E' α) : Returns P (ofExcept f r) := by
  cases r with
  | error e => exact h e
  | ok a => trivial

theorem Returns.bind {x : Res E α} {f : α → Res E β} (hx : Returns P x) (hf : ∀ a, x = .ok a → Returns P (f a)) :
    Returns P (x >>= f) := by
  rcases x with (e | _ | _) | a
  · exact hx
  · exact hx
  · exact hx
  · exact hf a rfl

/-- The call returned, a value in `Q` or an error: it neither panicked nor ran on. -/
def Ensures (Q : α → Prop) : Res E α → Prop
  | .ok a => Q a
  | .error (.error _) => True
  | .error (.panic _) | .error .hang => False

theorem Ensures.bind {Q : α → Prop} {R : β → Prop} {x : Res E α} {f : α → Res E β} (hx : Ensures Q x)
    (hf : ∀ a, Q a → Ensures R (f a)) : Ensures R (x >>= f) := by
  rcases x with (e | _ | _) | a
  · trivial
  · exact hx
  · exact hx
  · exact hf a hx

theorem Ensures.mono {Q R : α → Prop} {x : Res E α} (hx : Ensures Q x) (h : ∀ a, Q a → R a) : Ensures R x := by
  rcases x with (e | _ | _) | a
  · trivial
  · exact hx
  · exact hx
  · exact h a hx

theorem ensures_okOr (o : Option α) (e : E) : Ensures (fun a => o = some a) (okOr o e) := by
  cases o with
  | none => trivial
  | some a => rfl

theorem Ensures.of_ok {Q : α → Prop} {x : Res E α} {a : α} (hx : Ensures Q x) (h : x = .ok a) : Q a := by
  rw [h] at hx
  exact hx

theorem Ensures.returns {Q : α → Prop} {x : Res E α} (hx : Ensures Q x) : Returns (fun _ => True) x := by
  rcases x with (e | _ | _) | a
  · trivial
  · exact hx
  · exact hx
  · trivial

end Res

/-- Code that reads and writes a store `σ`. -/
def Action (σ E α : Type) := σ → Res E α × σ

namespace Action

variable {σ E E' α β : Type}

instance : Monad (Action σ E) where
  pure a := fun s => (.ok a, s)
  bind x f := fun s =>
    match x s with
    | (.ok a, s') => f a s'
    | (.error h, s') => (.error h, s')

/-- Reads the store without writing it. -/
def read (f : σ → Res E α) : Action σ E α := fun s => (f s, s)

/-- Writes the store, where the write itself may panic and then does nothing. -/
def write (f : σ → Res E σ) : Action σ E Unit := fun s =>
  match f s with
  | .ok s' => (.ok (), s')
  | .error h => (.error h, s)

/-- Returns an error. -/
def fail (e : E) : Action σ E α := fun s => (Res.fail e, s)

/-- Lifts a computation that does not touch the store. -/
def ofRes (r : Res E α) : Action σ E α := fun s => (r, s)

/-- Runs out of fuel. -/
def hang : Action σ E α := fun s => (.error .hang, s)

/-- `Result::map_err` on an action. -/
def mapErr (f : E → E') (x : Action σ E α) : Action σ E' α := fun s => ((x s).1.mapErr f, (x s).2)

/-- The `Result` a call returns, as a value: errors are caught, panics are not. -/
def attempt (x : Action σ E α) : Action σ E' (Except E α) := fun s =>
  match x s with
  | (.ok a, s') => (.ok (.ok a), s')
  | (.error (.error e), s') => (.ok (.error e), s')
  | (.error (.panic message), s') => (.error (.panic message), s')
  | (.error .hang, s') => (.error .hang, s')

theorem bind_run (x : Action σ E α) (f : α → Action σ E β) (s : σ) :
    (x >>= f) s = match x s with
      | (.ok a, s') => f a s'
      | (.error h, s') => (.error h, s') := rfl

instance : LawfulMonad (Action σ E) := LawfulMonad.mk' _
  (fun x => by
    funext s
    change (match x s with
      | (.ok a, s') => (.ok a, s')
      | (.error h, s') => (.error h, s')) = x s
    rcases x s with ⟨_ | a, s'⟩ <;> rfl)
  (fun _ _ => rfl)
  (fun x f g => by
    funext s
    simp only [bind_run]
    rcases x s with ⟨_ | a, s'⟩ <;> rfl)

theorem bind_ok {x : Action σ E α} {a : α} {s s' : σ} (h : x s = (.ok a, s')) (f : α → Action σ E β) :
    (x >>= f) s = f a s' := by
  rw [bind_run, h]

theorem bind_error {x : Action σ E α} {e : Halt E} {s s' : σ} (h : x s = (.error e, s'))
    (f : α → Action σ E β) : (x >>= f) s = (.error e, s') := by
  rw [bind_run, h]

theorem bind_eq_ok {x : Action σ E α} {f : α → Action σ E β} {s t : σ} {b : β}
    (h : (x >>= f) s = (.ok b, t)) : ∃ a s', x s = (.ok a, s') ∧ f a s' = (.ok b, t) := by
  rw [bind_run] at h
  rcases hx : x s with ⟨_ | a, s'⟩
  · rw [hx] at h; cases h
  · rw [hx] at h; exact ⟨a, s', rfl, h⟩

theorem attempt_ok {x : Action σ E α} {s t : σ} {a : α} (h : x s = (.ok a, t)) :
    (attempt x s : Res E' (Except E α) × σ) = (.ok (.ok a), t) := by
  unfold attempt; rw [h]

theorem attempt_error {x : Action σ E α} {s t : σ} {e : E} (h : x s = (.error (.error e), t)) :
    (attempt x s : Res E' (Except E α) × σ) = (.ok (.error e), t) := by
  unfold attempt; rw [h]

theorem attempt_panic {x : Action σ E α} {s t : σ} {message : String} (h : x s = (.error (.panic message), t)) :
    (attempt x s : Res E' (Except E α) × σ) = (.error (.panic message), t) := by
  unfold attempt; rw [h]

theorem attempt_hang {x : Action σ E α} {s t : σ} (h : x s = (.error .hang, t)) :
    (attempt x s : Res E' (Except E α) × σ) = (.error .hang, t) := by
  unfold attempt; rw [h]

theorem ofRes_eq_ok {r : Res E α} {s t : σ} {a : α} (h : ofRes r s = (.ok a, t)) : r = .ok a ∧ s = t :=
  Prod.mk.inj h

theorem read_eq_ok {f : σ → Res E α} {s t : σ} {a : α} (h : read f s = (.ok a, t)) : f s = .ok a ∧ s = t :=
  Prod.mk.inj h

theorem write_eq_ok {f : σ → Res E σ} {s t : σ} {a : Unit} (h : write f s = (.ok a, t)) : f s = .ok t := by
  unfold write at h
  split at h
  · rename_i heq
    cases h; exact heq
  · cases h

/-- An action that judges the store and then writes it once returns, or leaves the store as it was. -/
theorem read_write_cases (check : σ → Res E β) (commit : β → σ → Res E σ) (result : β → α) (s : σ) :
    (∃ h, (do
      let b ← read check
      write (commit b)
      pure (result b) : Action σ E α) s = (.error h, s)) ∨
    ∃ b t, check s = .ok b ∧ commit b s = .ok t ∧ (do
      let b ← read check
      write (commit b)
      pure (result b) : Action σ E α) s = (.ok (result b), t) := by
  cases hc : check s with
  | error h =>
    have hread : read check s = (.error h, s) := by rw [read, hc]
    exact .inl ⟨h, bind_error hread _⟩
  | ok b =>
    have hread : read check s = (.ok b, s) := by rw [read, hc]
    rw [bind_ok hread]
    cases hw : commit b s with
    | error h =>
      have hwrite : write (commit b) s = (.error h, s) := by rw [write, hw]
      exact .inl ⟨h, bind_error hwrite _⟩
    | ok t =>
      have hwrite : write (commit b) s = (.ok (), t) := by rw [write, hw]
      exact .inr ⟨b, t, rfl, hw, bind_ok hwrite _⟩

end Action

end Outcome
