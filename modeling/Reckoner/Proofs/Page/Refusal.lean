import Reckoner.Proofs.Page.Outcome

/-! A pool fails only if its allocator refuses, and reports what was refused. -/
namespace Reckoner.Pool

variable {p q : Pool} {code : List UInt8} {pack : Bool}

def Denied (p : Pool) (e : Error) : Prop :=
  ∃ n r, p.allocator.refuses n r = true ∧ e = .allocation (.refused r.kind)

theorem Refuses.denied {r : Request} (h : p.Refuses r) :
    p.Denied (.allocation (.refused r.kind)) :=
  ⟨_, r, h, rfl⟩

theorem Denied.congr {e : Error} (h : q.Denied e)
    (hsame : q.allocator.refuses = p.allocator.refuses) : p.Denied e := by
  rwa [Denied, ← hsame]

/-! Nothing that a pool does changes its allocator's mind. -/

theorem Acquisition.refuses {need : Nat} {result : Except Error Nat}
    (h : p.Acquisition need (result, q)) : q.allocator.refuses = p.allocator.refuses := by
  cases h <;> rfl

theorem PlacingAnew.refuses {outcome : Except Error Placement × Pool}
    (h : p.PlacingAnew code pack outcome) :
    outcome.2.allocator.refuses = p.allocator.refuses := by
  cases h with
  | noPage e q hacquire => exact hacquire.refuses
  | inProgress id q hacquire hpack => exact hacquire.refuses
  | executable id q hacquire hpack => exact hacquire.refuses
  | givenBack id q hacquire hpack => exact hacquire.refuses

theorem Placing.refuses {outcome : Except Error Placement × Pool} (h : p.Placing code pack outcome) :
    outcome.2.allocator.refuses = p.allocator.refuses := by
  cases h with
  | joined id hpending hpack hroom => rfl
  | notFlushed id hpending hpack hfull => rfl
  | flushed id hpending hpack hfull outcome hplace => exact hplace.refuses
  | anew hpending outcome hplace => exact hplace.refuses

theorem FreezingPending.refuses {outcome : Except Error Unit × Pool} (h : p.FreezingPending outcome) :
    outcome.2.allocator.refuses = p.allocator.refuses := by
  cases h <;> rfl

theorem Releasing.refuses {id : Nat} (h : p.Releasing id q) :
    q.allocator.refuses = p.allocator.refuses := by
  cases h <;> rfl

theorem Acquisition.denied {need : Nat} {e : Error} (h : p.Acquisition need (.error e, q)) :
    p.Denied e := by
  cases h with
  | notRenewed id rest hfree hlength page hpage hexecutable hrefuses => exact hrefuses.denied
  | notOpened hshort hrefuses => exact hrefuses.denied

theorem PlacingAnew.denied {e : Error} (h : p.PlacingAnew code pack (.error e, q)) :
    p.Denied e := by
  cases h with
  | noPage e q hacquire => exact hacquire.denied
  | givenBack id q hacquire hpack hrefuses => exact hrefuses.denied.congr hacquire.refuses

theorem Placing.denied {e : Error} (h : p.Placing code pack (.error e, q)) : p.Denied e := by
  cases h with
  | notFlushed id hpending hpack hfull hrefuses => exact hrefuses.denied
  | flushed id hpending hpack hfull outcome hplace => exact hplace.denied.congr rfl
  | anew hpending outcome hplace => exact hplace.denied

theorem FreezingPending.denied {e : Error} (h : p.FreezingPending (.error e, q)) : p.Denied e := by
  cases h with
  | refused id hpending hrefuses => exact hrefuses.denied

end Reckoner.Pool
