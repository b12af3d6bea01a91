import Reckoner.Proofs.Page.Protection
import Reckoner.Proofs.Page.Supply

/-! A placement that fails. Some requests may have been granted before one is refused, and the last
refusal decides what is left: code in use stays as it is, and no page is lost. -/
namespace Reckoner

namespace Pool

variable {p q : Pool} {id need : Nat} {code : List UInt8} {pack : Bool} {e : Error}
  {earlier : List Page.Event} {r : Request}

def Unchanged (p q : Pool) : Prop :=
  q = { p with allocator := { p.allocator with history := q.allocator.history } }

theorem Unchanged.refused (p : Pool) (r : Request) : p.Unchanged (p.refused r) := rfl

/-- What is left of a pool when code could not be placed: `earlier` happened, and then `r` was
refused. -/
structure RollsBack (p : Pool) (code : List UInt8) (earlier : List Page.Event) (r : Request)
    (q : Pool) : Prop where
  active : q.active = p.active
  refs : ∀ (id : Nat) (page : Page), p.pages[id]? = some page →
    ∃ after, q.pages[id]? = some after ∧ after.refs = page.refs ∧
      (id ∈ p.active → after.memory = page.memory)
  fresh : ∀ (id : Nat) (page : Page), p.pages[id]? = none → q.pages[id]? = some page → page.refs = 0
  -- The page in progress was full and could not be frozen.
  full : ∀ id length, r = .freeze id length → p.pending = some id → p.Unchanged q
  -- There was no page for the code, and none had been in the way.
  noPage : r.kind ≠ .freeze → (∀ id length, .granted (.freeze id length) ∉ earlier) → p.Unchanged q
  -- The page in progress was frozen before.
  flushed : ∀ id length, .granted (.freeze id length) ∈ earlier → p.pending = some id ∧
    { p.update id fun page => { page with protection := .executable } with
      pending := none }.Unchanged q
  -- The page with the new code could not be frozen.
  givenBack : ∀ id length, r = .freeze id length → p.pending ≠ some id →
    .wrote id 0 code.length ∈ earlier ∧ id ∈ q.free ∧
    ∃ page, q.pages[id]? = some page ∧ page.protection = .writable ∧ page.refs = 0 ∧ page.used = 0

theorem RollsBack.at_once (hr : ∀ id length, r = .freeze id length → p.pending = some id) :
    p.RollsBack code [] r (p.refused r) where
  active := rfl
  refs id page hpage := ⟨page, hpage, rfl, fun _ => rfl⟩
  fresh id page hnone hpage := by simp [Pool.refused, hnone] at hpage
  full _ _ _ _ := .refused p r
  noPage _ _ := .refused p r
  flushed := by simp
  givenBack id length hfreeze hpending := absurd (hr id length hfreeze) hpending

theorem Kept.frozen (p : Pool) (id : Nat) : Kept p.pages (p.frozen id).pages :=
  .modify p.pages id fun _ => ⟨rfl, rfl⟩

theorem RollsBack.after_flush (hpending : p.pending = some id) (hr : r.kind ≠ .freeze) :
    p.RollsBack code [.granted (.freeze id (p.lengthOf id)), .frozen id] r
      ({ p.frozen id with pending := none }.refused r) where
  active := rfl
  refs j page hpage := by
    obtain ⟨after, hafter, hrefs, hmemory⟩ := (Kept.frozen p id).same j page hpage
    exact ⟨after, hafter, hrefs, fun _ => hmemory⟩
  fresh := (Kept.frozen p id).fresh
  full j length hfreeze := by
    rw [hfreeze] at hr
    exact absurd rfl hr
  noPage _ hnone := absurd List.mem_cons_self (hnone id (p.lengthOf id))
  flushed j length hmem := by
    simp only [List.mem_cons, Page.Event.granted.injEq, Request.freeze.injEq, reduceCtorEq,
      List.not_mem_nil, or_false] at hmem
    obtain ⟨rfl, -⟩ := hmem
    exact ⟨hpending, rfl⟩
  givenBack j length hfreeze := by
    rw [hfreeze] at hr
    exact absurd rfl hr

theorem RollsBack.after_write (hpool : p.Accounted [])
    (hacquire : p.Acquisition code.length (.ok id, q)) {events : List Page.Event}
    (hsupplies : p.Supplies code.length events q) (length : Nat) :
    p.RollsBack code (events ++ [.wrote id 0 code.length]) (.freeze id length)
      (((q.write id 0 code).refused (.freeze id length)).giveBack id) := by
  obtain ⟨hheld, hpending, page, hpage, hvacant, hwritable, -⟩ := hpool.acquired hacquire
  obtain ⟨hidle, -⟩ := hheld.not_mem_of_held
  rw [hsupplies.active] at hidle
  have hleft : (((q.write id 0 code).refused (.freeze id length)).giveBack id).pages[id]? =
      some { page.write 0 code with refs := (page.write 0 code).refs - 1, used := 0 } :=
    getElem?_update (getElem?_update hpage _) _
  have hothers : ∀ j, id ≠ j →
      (((q.write id 0 code).refused (.freeze id length)).giveBack id).pages[j]? = q.pages[j]? := by
    intro j hij
    simp [giveBack, update, Pool.refused, write, hij]
  have hrefs : (page.write 0 code).refs - 1 = 0 := by simp [Page.write, hvacant.refs]
  have hgranted : ∀ j length, .granted (.freeze j length) ∉ events ++ [.wrote id 0 code.length] := by
    intro j length hmem
    rcases List.mem_append.1 hmem with hmem | hmem
    · exact hsupplies.freezes _ hmem j length rfl
    · simp at hmem
  refine ⟨hsupplies.active, ?_, ?_, ?_, fun hkind => absurd rfl hkind,
    fun j length hmem => absurd hmem (hgranted j length), ?_⟩
  · intro j before hbefore
    obtain ⟨between, hbetween, hsame, hmemory⟩ := hsupplies.kept.same j before hbefore
    by_cases hij : id = j
    · subst hij
      obtain rfl : page = between := Option.some.inj (hpage.symm.trans hbetween)
      exact ⟨_, hleft, by rw [hrefs, ← hsame, hvacant.refs], fun hactive => absurd hactive hidle⟩
    · exact ⟨between, by rw [hothers j hij, hbetween], hsame, fun _ => hmemory⟩
  · intro j after hnone hafter
    by_cases hij : id = j
    · subst hij
      obtain rfl := Option.some.inj (hleft.symm.trans hafter)
      exact hrefs
    · rw [hothers j hij] at hafter
      exact hsupplies.kept.fresh j after hnone hafter
  · rintro _ _ ⟨⟩ hprogress
    exact absurd (hpool.pending id hprogress) hidle
  · rintro _ _ ⟨⟩ -
    exact ⟨by simp, by simp [giveBack], _, hleft, hwritable, hrefs, rfl⟩

theorem Acquisition.rollsBack (h : p.Acquisition need (.error e, q)) :
    ∃ r, r.kind ≠ .freeze ∧ q = p.refused r ∧ e = .allocation (.refused r.kind) := by
  cases h with
  | notRenewed id rest hfree hlength page hpage hexecutable hrefuses =>
    exact ⟨.renew id (p.lengthOf id), by simp [Request.kind], rfl, rfl⟩
  | notOpened hshort hrefuses =>
    exact ⟨.allocate (p.lengthFor need), by simp [Request.kind], rfl, rfl⟩

theorem Placing.rollsBack (h : p.Placing code pack (.error e, q)) (hpool : p.Accounted []) :
    ∃ earlier r, q.eventsSince p = earlier ++ [.refused r] ∧ e = .allocation (.refused r.kind) ∧
      p.RollsBack code earlier r q := by
  cases h with
  | notFlushed id hpending hpack hfull hrefuses =>
    refine ⟨[], .freeze id (p.lengthOf id), eventsSince_eq rfl, rfl, .at_once ?_⟩
    rintro _ _ ⟨⟩
    exact hpending
  | flushed id hpending hpack hfull outcome hplace =>
    cases hplace with
    | noPage e q hacquire =>
      obtain ⟨r, hkind, rfl, rfl⟩ := hacquire.rollsBack
      refine ⟨_, r, eventsSince_eq ?_, rfl, .after_flush hpending hkind⟩
      rw [← List.append_assoc, ← frozen_history]
      rfl
    | givenBack id q hacquire hpack' hrefuses => simp [hpack] at hpack'
  | anew hpending outcome hplace =>
    cases hplace with
    | noPage e q hacquire =>
      obtain ⟨r, hkind, rfl, rfl⟩ := hacquire.rollsBack
      refine ⟨[], r, eventsSince_eq rfl, rfl, .at_once ?_⟩
      rintro _ _ rfl
      exact absurd rfl hkind
    | givenBack id q hacquire hpack hrefuses =>
      obtain ⟨events, hsupplies⟩ := hacquire.supplies
      refine ⟨_, _, eventsSince_eq ?_, rfl, .after_write hpool hacquire hsupplies _⟩
      rw [← List.append_assoc, ← List.append_assoc, ← hsupplies.history]
      rfl

def Reachable (p : Pool) : Prop :=
  ∃ (a : Allocator) (actions : List Action), 0 < a.pageSize ∧ p = (Pool.empty a).actAll actions

/-- If code cannot be placed then the allocator has refused a request, the error says of which kind it
was, and what is left of the pool depends on that request. -/
theorem place_rolls_back (p : Pool) (hreachable : p.Reachable) (code : List UInt8) (pack : Bool)
    (e : Error) (q : Pool) (hplace : p.place code pack = (.error e, q)) :
    ∃ earlier r, q.eventsSince p = earlier ++ [.refused r] ∧ e = .allocation (.refused r.kind) ∧
      p.RollsBack code earlier r q := by
  obtain ⟨a, actions, hpageSize, rfl⟩ := hreachable
  have houtcome := place_outcome ((Pool.empty a).actAll actions) code pack
  rw [hplace] at houtcome
  exact houtcome.rollsBack ((Accounted.empty hpageSize).actAll actions)

/-- The page in progress has no room and is frozen, and then there is no page for the code. -/
theorem place_rolls_back_flushed :
    let p := (Pool.empty ⟨16, fun n _ => n = 5, []⟩).actAll [.place [1] true]
    let q := (p.place [2] true).2
    p.Reachable ∧ p.place [2] true = (.error (.allocation (.refused .allocate)), q) ∧
    q.eventsSince p =
      [.granted (.freeze 0 16), .frozen 0, .refused (.allocate 16)] ∧
    ∃ earlier r, q.eventsSince p = earlier ++ [.refused r] ∧
      Error.allocation (.refused .allocate) = .allocation (.refused r.kind) ∧
      p.RollsBack [2] earlier r q := by
  intro p q
  have hreachable : p.Reachable := ⟨_, _, by decide, rfl⟩
  have hresult : (p.place [2] true).1 = .error (.allocation (.refused .allocate)) := by cbv
  have hplace : p.place [2] true = (.error (.allocation (.refused .allocate)), q) :=
    Prod.ext hresult rfl
  exact ⟨hreachable, hplace, by decide, place_rolls_back p hreachable [2] true _ q hplace⟩

end Pool

end Reckoner
