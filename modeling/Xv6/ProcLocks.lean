import Xv6.ProcessSpec

/-! System calls that walk the process table under its locks, as one CPU executes them: the locks
it holds are part of the state, and taking one twice or letting go of one it does not hold is a
panic. -/
namespace Xv6.Process

open Program Vm Function

structure Locked where
  kern : Kern
  held : Fin nproc → Bool
  waitLock : Bool

abbrev L : Type → Type := Prog Locked Halt

def kernel {α : Type} (x : P α) : L α := zoom Locked.kern (fun s k => { s with kern := k }) x

def acquire (p : Fin nproc) : L PUnit := do
  let s ← get
  if s.held p then throw .acquire else set { s with held := update s.held p true }

def release (p : Fin nproc) : L PUnit := do
  let s ← get
  if s.held p then set { s with held := update s.held p false } else throw .release

def acquireWait : L PUnit := do
  let s ← get
  if s.waitLock then throw .acquire else set { s with waitLock := true }

def releaseWait : L PUnit := do
  let s ← get
  if s.waitLock then set { s with waitLock := false } else throw .release

def Locked.Free (s : Locked) : Prop := ∀ p, s.held p = false

def Locked.lock (s : Locked) (p : Fin nproc) : Locked :=
  { s with held := update s.held p true }

@[simp] theorem Locked.lock_kern (s : Locked) (p : Fin nproc) : (s.lock p).kern = s.kern := rfl

variable {s : Locked} {p : Fin nproc} {α : Type}

theorem wp_acquire {Q : PUnit → Locked → Prop} {E : Halt → Locked → Prop} (hs : s.held p = false)
    (h : Q ⟨⟩ (s.lock p)) : wp (acquire p) Q E s := by
  refine wp_bind (wp_get ?_)
  rw [if_neg (by rw [hs]; exact Bool.false_ne_true)]
  exact wp_modify (f := fun _ => s.lock p) h

theorem wp_release {Q : PUnit → Locked → Prop} {E : Halt → Locked → Prop} {k : Kern}
    (hs : s.held p = false) (h : Q ⟨⟩ { s with kern := k }) :
    wp (release p) Q E { s.lock p with kern := k } := by
  refine wp_bind (wp_get ?_)
  have hheld : ({ s.lock p with kern := k } : Locked).held p = true := update_self ..
  rw [if_pos hheld]
  have hback : ({ { s.lock p with kern := k } with
      held := update (s.lock p).held p false } : Locked) = { s with kern := k } := by
    have hfun : update (update s.held p true) p false = s.held := by
      rw [update_idem, ← hs, update_eq_self]
    simp only [Locked.lock, hfun]
  exact wp_modify (f := fun _ => _) (hback ▸ h)

theorem wp_kernel {x : P α} {Q : α → Locked → Prop} {E : Halt → Locked → Prop}
    (h : wp x (fun a k => Q a { s with kern := k }) (fun e k => E e { s with kern := k }) s.kern) :
    wp (kernel x) Q E s :=
  wp_zoom h

end Xv6.Process
