import Reckoner.Page.Pool

/-! What each operation of a page pool can do: every way in which it ends, with the pool that is
left. Refused requests leave a trace in the history and change nothing else unless the outcome says
so. Invariants of pools are proved from the outcomes and never from the operations. -/
namespace Reckoner

theorem le_alignUp {step : Nat} (h : 0 < step) (n : Nat) : n ≤ alignUp n step := by
  have hdiv := Nat.div_add_mod (n + step - 1) step
  have hmod := Nat.mod_lt (n + step - 1) h
  rw [alignUp, Nat.mul_comm]
  omega

theorem dvd_alignUp (n step : Nat) : step ∣ alignUp n step := Nat.dvd_mul_left _ _

theorem takeFirst_eq_some {fits : Nat → Bool} {xs rest : List Nat} {x : Nat}
    (h : takeFirst fits xs = some (x, rest)) : fits x = true ∧ xs.Perm (x :: rest) := by
  induction xs generalizing rest with
  | nil => contradiction
  | cons y ys ih =>
    rw [takeFirst] at h
    split at h
    next hfits =>
      obtain ⟨rfl, rfl⟩ := Prod.mk.inj (Option.some.inj h)
      refine ⟨hfits, List.Perm.cons y ?_⟩
      cases hlast : ys.getLast? with
      | none =>
        rw [List.getLast?_eq_none_iff] at hlast
        rw [hlast]
      | some last =>
        have hys : ys.dropLast ++ [last] = ys := by
          rw [List.getLast?_eq_some_iff] at hlast
          obtain ⟨front, rfl⟩ := hlast
          simp
        have hmoved : (ys.dropLast ++ [last]).Perm (last :: ys.dropLast) :=
          List.perm_append_singleton last ys.dropLast
        rwa [hys] at hmoved
    next =>
      obtain ⟨⟨z, between⟩, hz, hpair⟩ := Option.map_eq_some_iff.1 h
      obtain ⟨rfl, rfl⟩ := Prod.mk.inj hpair
      obtain ⟨hfits, hperm⟩ := ih hz
      exact ⟨hfits, (hperm.cons y).trans (List.Perm.swap z y between)⟩

theorem takeFirst_eq_none {fits : Nat → Bool} {xs : List Nat} (h : takeFirst fits xs = none) :
    ∀ x ∈ xs, fits x = false := by
  induction xs with
  | nil => simp
  | cons y ys ih =>
    rw [takeFirst] at h
    split at h
    next => contradiction
    next hfits =>
      rw [Option.map_eq_none_iff] at h
      intro x hx
      rcases List.mem_cons.1 hx with rfl | hx
      · exact Bool.eq_false_iff.2 hfits
      · exact ih h x hx

namespace Pool

@[simp] theorem record_pages (p : Pool) (e : Page.Event) : (p.record e).pages = p.pages := rfl

theorem lengthOf_eq {p : Pool} {id : Nat} {page : Page} (h : p.pages[id]? = some page) :
    p.lengthOf id = page.length := by
  rw [lengthOf, h]

def frozen (p : Pool) (id : Nat) : Pool :=
  ((p.record (.granted (.freeze id (p.lengthOf id)))).update id
    fun page => { page with protection := .executable }).record (.frozen id)

def renewed (p : Pool) (id : Nat) : Pool :=
  (p.record (.granted (.renew id (p.lengthOf id)))).update id
    fun page => { page with protection := .writable }

def taken (p : Pool) (id : Nat) (rest : List Nat) : Pool :=
  { p with free := rest }.record (.reused id (p.lengthOf id))

def opened (p : Pool) (length : Nat) : Pool :=
  { p.record (.granted (.allocate length)) with
    pages := p.pages ++ [Page.fresh length]
    allocations := p.allocations + 1 }.record (.opened p.pages.length length)

@[simp] theorem frozen_pages (p : Pool) (id : Nat) :
    (p.frozen id).pages = p.pages.modify id fun page => { page with protection := .executable } :=
  rfl

@[simp] theorem renewed_pages (p : Pool) (id : Nat) :
    (p.renewed id).pages = p.pages.modify id fun page => { page with protection := .writable } :=
  rfl

@[simp] theorem taken_pages (p : Pool) (id : Nat) (rest : List Nat) :
    (p.taken id rest).pages = p.pages := rfl

@[simp] theorem opened_pages (p : Pool) (length : Nat) :
    (p.opened length).pages = p.pages ++ [Page.fresh length] := rfl

@[simp] theorem opened_allocations (p : Pool) (length : Nat) :
    (p.opened length).allocations = p.allocations + 1 := rfl

theorem frozen_history (p : Pool) (id : Nat) : (p.frozen id).allocator.history =
    p.allocator.history ++ [.granted (.freeze id (p.lengthOf id)), .frozen id] :=
  List.append_assoc _ _ _

theorem write_history (p : Pool) (id offset : Nat) (code : List UInt8) :
    (p.write id offset code).allocator.history =
      p.allocator.history ++ [.wrote id offset code.length] := rfl

theorem getElem?_update {p : Pool} {id : Nat} {page : Page} (h : p.pages[id]? = some page)
    (f : Page → Page) : (p.update id f).pages[id]? = some (f page) := by
  rw [update, List.getElem?_modify_eq, h]
  rfl

def refused (p : Pool) (r : Request) : Pool := p.record (.refused r)

def lengthFor (p : Pool) (need : Nat) : Nat := alignUp (max need 1) p.allocator.pageSize

def Refuses (p : Pool) (r : Request) : Prop :=
  p.allocator.refuses p.allocator.history.length r = true

inductive Freezing (p : Pool) (id : Nat) : Except Error Unit × Pool → Prop
  | granted : Freezing p id (.ok (), p.frozen id)
  | refused (hrefuses : p.Refuses (.freeze id (p.lengthOf id))) : Freezing p id
    (.error (.allocation (.refused .freeze)), p.refused (.freeze id (p.lengthOf id)))

theorem freeze_outcome (p : Pool) (id : Nat) : p.Freezing id (p.freeze id) := by
  unfold freeze request
  cases hrefuses : p.allocator.refuses p.allocator.history.length (.freeze id (p.lengthOf id)) with
  | true => exact .refused hrefuses
  | false => exact .granted

inductive Acquisition (p : Pool) (need : Nat) : Except Error Nat × Pool → Prop
  | taken (id : Nat) (rest : List Nat) (hfree : p.free.Perm (id :: rest))
    (hlength : p.lengthFor need ≤ p.lengthOf id)
    (hwritable : ∀ page, p.pages[id]? = some page → page.protection = .writable) :
    Acquisition p need (.ok id, p.taken id rest)
  | renewed (id : Nat) (rest : List Nat) (hfree : p.free.Perm (id :: rest))
    (hlength : p.lengthFor need ≤ p.lengthOf id) (page : Page) (hpage : p.pages[id]? = some page)
    (hexecutable : page.protection = .executable) :
    Acquisition p need (.ok id, (p.renewed id).taken id rest)
  | notRenewed (id : Nat) (rest : List Nat) (hfree : p.free.Perm (id :: rest))
    (hlength : p.lengthFor need ≤ p.lengthOf id) (page : Page) (hpage : p.pages[id]? = some page)
    (hexecutable : page.protection = .executable) (hrefuses : p.Refuses (.renew id (p.lengthOf id))) :
    Acquisition p need
      (.error (.allocation (.refused .renew)), p.refused (.renew id (p.lengthOf id)))
  | opened (hshort : ∀ id ∈ p.free, p.lengthOf id < p.lengthFor need) :
    Acquisition p need (.ok p.pages.length, p.opened (p.lengthFor need))
  | notOpened (hshort : ∀ id ∈ p.free, p.lengthOf id < p.lengthFor need)
    (hrefuses : p.Refuses (.allocate (p.lengthFor need))) :
    Acquisition p need
      (.error (.allocation (.refused .allocate)), p.refused (.allocate (p.lengthFor need)))

theorem acquire_outcome (p : Pool) (need : Nat) : p.Acquisition need (p.acquire need) := by
  unfold acquire
  dsimp only
  split
  next id rest htake =>
    obtain ⟨hfits, hfree⟩ := takeFirst_eq_some htake
    have hlength : p.lengthFor need ≤ p.lengthOf id := of_decide_eq_true hfits
    unfold renew request
    cases hpage : p.pages[id]? with
    | none => exact .taken id rest hfree hlength (fun page h => by simp [hpage] at h)
    | some page =>
      cases hprotection : page.protection with
      | writable =>
        simp only [hprotection]
        exact .taken id rest hfree hlength (fun page' h => by simp_all)
      | executable =>
        simp only [hprotection]
        rw [← lengthOf_eq hpage]
        cases hrefuses : p.allocator.refuses p.allocator.history.length
          (.renew id (p.lengthOf id)) with
        | true => exact .notRenewed id rest hfree hlength page hpage hprotection hrefuses
        | false => exact .renewed id rest hfree hlength page hpage hprotection
  next htake =>
    have hshort : ∀ id ∈ p.free, p.lengthOf id < p.lengthFor need := by
      intro id hid
      have hfits := of_decide_eq_false (takeFirst_eq_none htake id hid)
      exact Nat.not_le.1 hfits
    have hlength : alignUp (max need 1) p.allocator.pageSize = p.lengthFor need := rfl
    rw [hlength]
    unfold request
    cases hrefuses : p.allocator.refuses p.allocator.history.length
      (.allocate (p.lengthFor need)) with
    | true => exact .notOpened hshort hrefuses
    | false => exact .opened hshort

/-- What placing code in a page of its own choice can do. The page was not in use before. -/
inductive PlacingAnew (p : Pool) (code : List UInt8) (pack : Bool) :
    Except Error Placement × Pool → Prop
  | noPage (e : Error) (q : Pool) (hacquire : p.Acquisition code.length (.error e, q)) :
    PlacingAnew p code pack (.error e, q)
  | inProgress (id : Nat) (q : Pool) (hacquire : p.Acquisition code.length (.ok id, q))
    (hpack : pack = true) :
    PlacingAnew p code pack (.ok ⟨id, 0⟩, { q.write id 0 code with pending := some id }.activate id)
  | executable (id : Nat) (q : Pool) (hacquire : p.Acquisition code.length (.ok id, q))
    (hpack : pack = false) :
    PlacingAnew p code pack (.ok ⟨id, 0⟩, ((q.write id 0 code).frozen id).activate id)
  | givenBack (id : Nat) (q : Pool) (hacquire : p.Acquisition code.length (.ok id, q))
    (hpack : pack = false)
    (hrefuses : (q.write id 0 code).Refuses (.freeze id ((q.write id 0 code).lengthOf id))) :
    PlacingAnew p code pack (.error (.allocation (.refused .freeze)),
      ((q.write id 0 code).refused (.freeze id ((q.write id 0 code).lengthOf id))).giveBack id)

theorem placeAnew_outcome (p : Pool) (code : List UInt8) (pack : Bool) :
    p.PlacingAnew code pack (p.placeAnew code pack) := by
  have hacquire := p.acquire_outcome code.length
  unfold placeAnew
  cases ha : p.acquire code.length with
  | mk result q =>
    rw [ha] at hacquire
    cases result with
    | error e => exact .noPage e q hacquire
    | ok id =>
      cases hpack : pack with
      | true => exact .inProgress id q hacquire rfl
      | false =>
        have hfreeze := (q.write id 0 code).freeze_outcome id
        dsimp only
        cases hf : (q.write id 0 code).freeze id with
        | mk outcome r =>
          rw [hf] at hfreeze
          cases hfreeze with
          | granted => exact .executable id q hacquire rfl
          | refused hrefuses => exact .givenBack id q hacquire rfl hrefuses

def usedOf (p : Pool) (id : Nat) : Nat :=
  match p.pages[id]? with
  | some page => page.used
  | none => 0

theorem usedOf_eq {p : Pool} {id : Nat} {page : Page} (h : p.pages[id]? = some page) :
    p.usedOf id = page.used := by
  rw [usedOf, h]

inductive Placing (p : Pool) (code : List UInt8) (pack : Bool) :
    Except Error Placement × Pool → Prop
  | joined (id : Nat) (hpending : p.pending = some id) (hpack : pack = true)
    (hroom : alignUp (p.usedOf id) codeAlign + code.length ≤ p.lengthOf id) :
    Placing p code pack (.ok ⟨id, alignUp (p.usedOf id) codeAlign⟩,
      (p.record (.packed id (alignUp (p.usedOf id) codeAlign) code.length)).write id
        (alignUp (p.usedOf id) codeAlign) code)
  | notFlushed (id : Nat) (hpending : p.pending = some id) (hpack : pack = true)
    (hfull : p.lengthOf id < alignUp (p.usedOf id) codeAlign + code.length)
    (hrefuses : p.Refuses (.freeze id (p.lengthOf id))) :
    Placing p code pack
      (.error (.allocation (.refused .freeze)), p.refused (.freeze id (p.lengthOf id)))
  | flushed (id : Nat) (hpending : p.pending = some id) (hpack : pack = true)
    (hfull : p.lengthOf id < alignUp (p.usedOf id) codeAlign + code.length)
    (outcome : Except Error Placement × Pool)
    (hplace : { p.frozen id with pending := none }.PlacingAnew code pack outcome) :
    Placing p code pack outcome
  | anew (hpending : pack = true → p.pending = none) (outcome : Except Error Placement × Pool)
    (hplace : p.PlacingAnew code pack outcome) : Placing p code pack outcome

inductive FreezingPending (p : Pool) : Except Error Unit × Pool → Prop
  | idle (hpending : p.pending = none) : FreezingPending p (.ok (), p)
  | granted (id : Nat) (hpending : p.pending = some id) :
    FreezingPending p (.ok (), { p.frozen id with pending := none })
  | refused (id : Nat) (hpending : p.pending = some id)
    (hrefuses : p.Refuses (.freeze id (p.lengthOf id))) : FreezingPending p
    (.error (.allocation (.refused .freeze)), p.refused (.freeze id (p.lengthOf id)))

theorem freezePending_outcome (p : Pool) : p.FreezingPending p.freezePending := by
  unfold freezePending
  cases hpending : p.pending with
  | none => exact .idle hpending
  | some id =>
    have hfreeze := p.freeze_outcome id
    dsimp only
    cases hf : p.freeze id with
    | mk outcome q =>
      rw [hf] at hfreeze
      cases hfreeze with
      | granted => exact .granted id hpending
      | refused hrefuses => exact .refused id hpending hrefuses

theorem place_outcome (p : Pool) (code : List UInt8) (pack : Bool) :
    p.Placing code pack (p.place code pack) := by
  unfold place
  cases pack with
  | false => exact .anew (by simp) _ (p.placeAnew_outcome code false)
  | true =>
    cases hpending : p.pending with
    | none => exact .anew (fun _ => hpending) _ (p.placeAnew_outcome code true)
    | some id =>
      have hfreeze := p.freezePending_outcome
      simp only [↓reduceIte]
      change p.Placing code true (if alignUp (p.usedOf id) codeAlign + code.length ≤ p.lengthOf id
        then _ else _)
      split
      next hroom => exact .joined id hpending rfl hroom
      next hfull =>
        have hfull := Nat.not_le.1 hfull
        cases hf : p.freezePending with
        | mk outcome q =>
          rw [hf] at hfreeze
          cases hfreeze with
          | idle hnone => simp [hpending] at hnone
          | granted id' hsome =>
            obtain rfl : id = id' := by simpa [hpending] using hsome
            exact .flushed id hpending rfl hfull _ (placeAnew_outcome _ code true)
          | refused id' hsome hrefuses =>
            obtain rfl : id = id' := by simpa [hpending] using hsome
            exact .notFlushed id hpending rfl hfull hrefuses

theorem update_update (p : Pool) (id : Nat) (f g : Page → Page) :
    (p.update id f).update id g = p.update id (g ∘ f) := by
  rw [update, update, update, List.modify_modify_eq]

def emptied (p : Pool) (id : Nat) : Pool :=
  { p.update id fun page => { page with refs := page.refs - 1, used := 0 } with
    pending := if p.pending = some id then none else p.pending }

def vacated (p : Pool) (id : Nat) : Pool :=
  { p.emptied id with active := p.active.erase id, free := p.free ++ [id] }.record (.vacated id)

inductive Releasing (p : Pool) (id : Nat) : Pool → Prop
  | absent (hpage : p.pages[id]? = none) : Releasing p id p
  | kept (page : Page) (hpage : p.pages[id]? = some page) (hrefs : 1 < page.refs) :
    Releasing p id (p.update id fun page => { page with refs := page.refs - 1 })
  | vacated (page : Page) (hpage : p.pages[id]? = some page) (hrefs : page.refs ≤ 1)
    (hactive : id ∈ p.active) : Releasing p id (p.vacated id)
  | emptied (page : Page) (hpage : p.pages[id]? = some page) (hrefs : page.refs ≤ 1)
    (hactive : id ∉ p.active) : Releasing p id (p.emptied id)

theorem release_outcome (p : Pool) (id : Nat) : p.Releasing id (p.release id) := by
  unfold release
  cases hpage : p.pages[id]? with
  | none => exact .absent hpage
  | some page =>
    dsimp only
    split
    next hrefs => exact .kept page hpage (by omega)
    next hrefs =>
      unfold vacate
      rw [update_update]
      dsimp only
      split
      next hactive => exact .vacated page hpage (by omega) hactive
      next hactive => exact .emptied page hpage (by omega) hactive

end Pool

end Reckoner
