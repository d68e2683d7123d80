import Mathlib.Logic.Relation

/-!
# Programs of atomic actions under interference

A program is a tree of atomic actions on a shared state. `Prog.run` executes it alone.
`Prog.Sat R G Q p s` is its rely/guarantee reading: whatever the other threads do between two actions
of `p`, as long as it is in `R`, every action of `p` is in `G` and `p` ends in `Q`. A lock lets one
operation at a time run its program while the other threads keep making lock-free steps
(`LockStep`); an invariant of the states in which the lock is free then follows from one `Sat`
triple for every operation (`LockReachable.inv`), and so does `G` for every action of every
interleaving (`LockStep.rel`).
-/

namespace Atomic

variable {σ α β : Type}

/-- A program: the result, or an action that writes the state and goes on with what it read. -/
inductive Prog (σ α : Type) where
  | done (a : α)
  | act (write : σ → σ) (next : σ → Prog σ α)

namespace Prog

/-- Sequential composition. -/
protected def bind : Prog σ α → (α → Prog σ β) → Prog σ β
  | done a, k => k a
  | act write next, k => act write fun s => (next s).bind k

def read (f : σ → α) : Prog σ α := act id fun s => done (f s)

def write (f : σ → σ) : Prog σ Unit := act f fun _ => done ()

def run : Prog σ α → σ → α × σ
  | done a, s => (a, s)
  | act write next, s => (next s).run (write s)

/-- Rely/guarantee satisfaction: before each action the others may take the state along `R`, the
action is in `G`, and the result and the state it is returned in are in `Q`. -/
def Sat (R G : σ → σ → Prop) (Q : α → σ → Prop) : Prog σ α → σ → Prop
  | done a, s => Q a s
  | act write next, s => ∀ s', R s s' → G s' (write s') ∧ (next s').Sat R G Q (write s')

variable {R G : σ → σ → Prop} {Q Q' : α → σ → Prop} {p : Prog σ α} {s s' : σ}

theorem Sat.mono (h : p.Sat R G Q s) (hQ : ∀ a s, Q a s → Q' a s) : p.Sat R G Q' s := by
  induction p generalizing s with
  | done a => exact hQ a s h
  | act write next ih => exact fun s' hs' => ⟨(h s' hs').1, ih s' (h s' hs').2⟩

theorem Sat.bind {k : α → Prog σ β} {Q : β → σ → Prop}
    (h : p.Sat R G (fun a s => (k a).Sat R G Q s) s) : (p.bind k).Sat R G Q s := by
  induction p generalizing s with
  | done a => exact h
  | act write next ih => exact fun s' hs' => ⟨(h s' hs').1, ih s' (h s' hs').2⟩

theorem Sat.stable (htrans : ∀ a b c, R a b → R b c → R a c)
    (hQ : ∀ a s s', Q a s → R s s' → Q a s') (h : p.Sat R G Q s) (hs : R s s') :
    p.Sat R G Q s' := by
  cases p with
  | done a => exact hQ a s s' h hs
  | act write next => exact fun s'' hs'' => h s'' (htrans _ _ _ hs hs'')

theorem Sat.weaken {R' G' : σ → σ → Prop} (h : p.Sat R G Q s) (hR : ∀ s s', R' s s' → R s s')
    (hG : ∀ s s', G s s' → G' s s') : p.Sat R' G' Q s := by
  induction p generalizing s with
  | done a => exact h
  | act write next ih =>
    exact fun s' hs' => ⟨hG _ _ (h s' (hR _ _ hs')).1, ih s' (h s' (hR _ _ hs')).2⟩

theorem Sat.history {P : σ → σ → Prop} {s₀ : σ} (h : p.Sat R G Q s) (hP : P s₀ s)
    (hR : ∀ s s', P s₀ s → R s s' → P s₀ s') (hG : ∀ s s', P s₀ s → G s s' → P s₀ s') :
    p.Sat R (fun s s' => G s s' ∧ P s₀ s') (fun a s' => Q a s' ∧ P s₀ s') s := by
  induction p generalizing s with
  | done a => exact ⟨h, hP⟩
  | act write next ih =>
    intro s' hs'
    have hP' := hG _ _ (hR _ _ hP hs') (h s' hs').1
    exact ⟨⟨(h s' hs').1, hP'⟩, ih s' (h s' hs').2 hP'⟩

/-- What may be left of a program after some of its actions. -/
inductive Rest (p : Prog σ α) : Prog σ α → Prop
  | refl : Rest p p
  | next {write : σ → σ} {next : σ → Prog σ α} (s : σ) (h : Rest p (act write next)) : Rest p (next s)

def Action (p : Prog σ α) (s s' : σ) : Prop :=
  ∃ write next, p.Rest (act write next) ∧ s' = write s

theorem Sat.run (hrefl : ∀ s, R s s) (h : p.Sat R G Q s) : Q (p.run s).1 (p.run s).2 := by
  induction p generalizing s with
  | done a => exact h
  | act write next ih => exact ih s (h s (hrefl s)).2

end Prog

/-! ## Operations under a lock -/

/-- The state of an object whose operations run under a lock: the operations started so far, the
rest of the one that holds the lock, and the shared state. The result `none` is that of an operation
that does not return. -/
structure LockState (ι α σ : Type) where
  started : List ι
  running : Option (Prog σ (Option α))
  shared : σ

variable {ι : Type}

/-- One step: an operation takes the lock, runs one action, or returns and gives the lock back; or
another thread makes a step in `E` without the lock. -/
inductive LockStep (ops : ι → Prog σ (Option α)) (E : σ → σ → Prop) :
    LockState ι α σ → LockState ι α σ → Prop
  | start (o : ι) (l : List ι) (s : σ) : LockStep ops E ⟨l, none, s⟩ ⟨l ++ [o], some (ops o), s⟩
  | own (write : σ → σ) (next : σ → Prog σ (Option α)) (l : List ι) (s : σ) :
      LockStep ops E ⟨l, some (.act write next), s⟩ ⟨l, some (next s), write s⟩
  | finish (a : α) (l : List ι) (s : σ) : LockStep ops E ⟨l, some (.done (some a)), s⟩ ⟨l, none, s⟩
  | other (l : List ι) (p : Option (Prog σ (Option α))) (s s' : σ) (h : E s s') :
      LockStep ops E ⟨l, p, s⟩ ⟨l, p, s'⟩

def LockReachable (ops : ι → Prog σ (Option α)) (E : σ → σ → Prop) (init : σ)
    (c : LockState ι α σ) : Prop :=
  Relation.ReflTransGen (LockStep ops E) ⟨[], none, init⟩ c

/-- What an invariant says while an operation is under way: the rest of the operation restores it.
The guarantee of an operation may depend on the operations started so far; `Ret` is what is known of
the results. -/
def LockInv (R : σ → σ → Prop) (G : List ι → σ → σ → Prop) (Ret : α → Prop)
    (Inv : List ι → σ → Prop) (c : LockState ι α σ) : Prop :=
  match c.running with
  | none => Inv c.started c.shared
  | some p => p.Sat R (G c.started) (fun r s => ∀ a, r = some a → Ret a ∧ Inv c.started s) c.shared

section Lock

variable {ops : ι → Prog σ (Option α)} {E R : σ → σ → Prop} {G : List ι → σ → σ → Prop}
  {Ret : α → Prop} {Inv : List ι → σ → Prop} {init : σ}
  {c c' : LockState ι α σ}

theorem LockStep.inv (hrefl : ∀ s, R s s) (htrans : ∀ a b c, R a b → R b c → R a c)
    (hE : ∀ s s', E s s' → R s s') (hstable : ∀ l s s', Inv l s → R s s' → Inv l s')
    (hops : ∀ o l s, Inv l s →
      (ops o).Sat R (G (l ++ [o])) (fun r s => ∀ a, r = some a → Ret a ∧ Inv (l ++ [o]) s) s)
    (h : LockStep ops E c c') (hc : LockInv R G Ret Inv c) : LockInv R G Ret Inv c' := by
  cases h with
  | start o l s => exact hops o l s hc
  | own write next l s => exact (hc s (hrefl s)).2
  | finish a l s => exact (hc a rfl).2
  | other l p s s' hs =>
    cases p with
    | none => exact hstable l s s' hc (hE s s' hs)
    | some p =>
      refine Prog.Sat.stable htrans (fun r s s' h hr a ha => ?_) hc (hE s s' hs)
      exact ⟨(h a ha).1, hstable l s s' (h a ha).2 hr⟩

/-- **The invariant rule**: an invariant that the lock-free steps keep and every operation restores
holds, in the sense of `LockInv`, in every interleaving. -/
theorem LockReachable.inv (hrefl : ∀ s, R s s) (htrans : ∀ a b c, R a b → R b c → R a c)
    (hE : ∀ s s', E s s' → R s s') (hinit : Inv [] init)
    (hstable : ∀ l s s', Inv l s → R s s' → Inv l s')
    (hops : ∀ o l s, Inv l s →
      (ops o).Sat R (G (l ++ [o])) (fun r s => ∀ a, r = some a → Ret a ∧ Inv (l ++ [o]) s) s)
    (h : LockReachable ops E init c) : LockInv R G Ret Inv c := by
  induction h with
  | refl => exact hinit
  | tail _ hstep ih => exact hstep.inv hrefl htrans hE hstable hops ih

theorem LockReachable.run {l : List ι} {s : σ} (h : LockReachable ops E init ⟨l, none, s⟩) (o : ι)
    {a : α} (ha : ((ops o).run s).1 = some a) :
    LockReachable ops E init ⟨l ++ [o], none, ((ops o).run s).2⟩ := by
  have hrun : ∀ (p : Prog σ (Option α)) (s : σ), (p.run s).1 = some a →
      Relation.ReflTransGen (LockStep ops E) ⟨l ++ [o], some p, s⟩ ⟨l ++ [o], none, (p.run s).2⟩ := by
    intro p
    induction p with
    | done r =>
      intro s hr
      obtain rfl : r = some a := hr
      exact .single (.finish a _ s)
    | act write next ih => exact fun s hr => .head (.own write next _ s) (ih s (write s) hr)
  exact (h.tail (.start o l s)).trans (hrun (ops o) s ha)

/-- **The step rule**: every action of the operation that holds the lock is in its guarantee. -/
theorem LockStep.rel {P : σ → σ → Prop} (hrefl : ∀ s, R s s) (hP : ∀ s, P s s)
    (hE : ∀ s s', E s s' → P s s') (hG : ∀ s s', G c'.started s s' → P s s')
    (h : LockStep ops E c c') (hc : LockInv R G Ret Inv c) : P c.shared c'.shared := by
  cases h with
  | start o l s => exact hP s
  | own write next l s => exact hG _ _ (hc s (hrefl s)).1
  | finish a l s => exact hP s
  | other l p s s' hs => exact hE s s' hs

end Lock

end Atomic
