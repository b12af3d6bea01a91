import Mathlib.Data.List.Perm.Basic
import Reckoner.Proofs.Context.Ownership
import Reckoner.Proofs.Number.Whole
import Reckoner.Native.Streamed
import Reckoner.Session.Step

/-! The books of a session balance after every command: contexts count the calculations that are
alive, pages count those that use them, and all native code is executable. The leases on the pages of
a native context are as many as its living calculations. -/
namespace Reckoner

def Session.ownedBy (id : Nat) (held : Option Held) : Option Calculation :=
  (held.filter (·.owner = some id)).map Held.calculation

def Session.living (s : Session) (id : Nat) : List Calculation :=
  s.calculations.filterMap (ownedBy id)

structure Session.Balanced (s : Session) : Prop where
  live : ∀ (id : Nat) (m : Member), s.contexts[id]? = some m → m.context.live = (s.living id).length
  refs : ∀ (id : Nat) (m : Member) (pool : Pool), s.contexts[id]? = some m →
    m.context.pool? = some pool → ∀ (n : Nat) (page : Page), pool.pages[n]? = some page →
      page.refs = (s.living id).countP (·.page? = some n)
  leases : ∀ (id : Nat) (m : Member) (pool : Pool), s.contexts[id]? = some m →
    m.context.pool? = some pool → s.leases id = m.context.live
  settled : ∀ (id : Nat) (m : Member) (pool : Pool), s.contexts[id]? = some m →
    m.context.pool? = some pool → pool.pending = none
  -- Also if the context was dropped.
  executable : ∀ h, some h ∈ s.calculations → ∀ n, h.calculation.page? = some n →
    ∃ id m pool page, h.owner = some id ∧ s.contexts[id]? = some m ∧
      m.context.pool? = some pool ∧ pool.pages[n]? = some page ∧ page.protection = .executable

def Session.stepAll (A : Arithmetic) (s : Session) (commands : List Command) : Session :=
  commands.foldl (fun s command => (s.step A command).session) s

def leased (living : List Calculation) : Nat := living.countP (·.page?.isSome)

theorem Context.Keeps.leased {c : Context} {living : List Calculation} (h : c.Keeps living)
    {pool : Pool} (hpool : c.pool? = some pool) : leased living = c.live := by
  obtain ⟨foundry, hengine, -⟩ := pool?_eq_some_iff.1 hpool
  rw [Reckoner.leased, h.live, List.countP_eq_length]
  intro k hk
  have hbackend := h.backend_native hengine k hk
  cases k with
  | native p placement => rfl
  | soft p => contradiction
  | bytecode p => contradiction

theorem Context.updatePool_of_none {c : Context} (h : c.pool? = none) (f : Pool → Pool) :
    c.updatePool f = c := by
  unfold pool? at h
  unfold updatePool
  cases hengine : c.engine with
  | native foundry => simp [hengine] at h
  | soft => rfl
  | bytecode => rfl

namespace Member

variable {m : Member} {living : List Calculation}

theorem owners_eq_zero_iff {leases : Nat} :
    m.owners leases = 0 ↔ m.alive = false ∧ leases = 0 := by
  unfold owners
  cases m.alive <;> simp

/-- A context with its living calculations, until its pages are given back. -/
inductive InOrder (m : Member) (living : List Calculation) : Prop
  | running (hkeeps : m.context.Keeps living) (hidle : m.context.Idle)
  | closed (hdropped : m.alive = false) (hliving : living = []) (hlive : m.context.live = 0)
    (hpool : ∀ pool, m.context.pool? = some pool → pool.pages = [] ∧ pool.pending = none)

theorem InOrder.perm (h : m.InOrder living) {living' : List Calculation}
    (hperm : living.Perm living') : m.InOrder living' := by
  cases h with
  | running hkeeps hidle => exact .running (hkeeps.perm hperm) hidle
  | closed hdropped hliving hlive hpool =>
    rw [hliving] at hperm
    exact .closed hdropped hperm.nil_eq.symm hlive hpool

theorem InOrder.alive (h : m.InOrder living) (halive : m.alive = true) :
    m.context.Keeps living ∧ m.context.Idle := by
  cases h with
  | running hkeeps hidle => exact ⟨hkeeps, hidle⟩
  | closed hdropped hliving hlive hpool =>
    rw [halive] at hdropped
    contradiction

theorem InOrder.settle (hkeeps : m.context.Keeps living) (hidle : m.context.Idle) :
    (m.settle (leased living)).InOrder living := by
  unfold Member.settle
  split
  next hgone =>
    obtain ⟨hdropped, hnone⟩ := owners_eq_zero_iff.1 hgone
    cases hpool : m.context.pool? with
    | none =>
      -- An interpreter has nothing to close, whatever of it is alive.
      rw [Context.updatePool_of_none hpool]
      exact .running hkeeps hidle
    | some pool =>
      have hlive : m.context.live = 0 := (hkeeps.leased hpool).symm.trans hnone
      refine .closed hdropped ?_ ?_ ?_
      · rw [← List.length_eq_zero_iff, ← hkeeps.live, hlive]
      · rw [Context.updatePool_live, hlive]
      · intro pool hpool
        rw [Context.updatePool_pool?] at hpool
        obtain ⟨before, -, rfl⟩ := Option.map_eq_some_iff.1 hpool
        exact ⟨rfl, rfl⟩
  next => exact .running hkeeps hidle

theorem InOrder.leased (h : m.InOrder living) {pool : Pool} (hpool : m.context.pool? = some pool) :
    leased living = m.context.live := by
  cases h with
  | running hkeeps hidle => exact hkeeps.leased hpool
  | closed hdropped hliving hlive hclosed =>
    rw [hliving, hlive]
    rfl

theorem InOrder.discarded (h : m.InOrder living) {k : Calculation} {rest : List Calculation}
    (hperm : living.Perm (k :: rest)) :
    ({ m with context := m.context.discard k }.settle (Reckoner.leased rest)).InOrder rest := by
  cases h with
  | running hkeeps hidle =>
    have hkept := hkeeps.discarded hperm
    exact .settle hkept (((hidle.aside rest).discarded k).idle hkept)
  | closed hdropped hliving hlive hpool =>
    rw [hliving] at hperm
    exact absurd hperm (List.not_perm_nil_cons k rest)

theorem InOrder.leased_discarded (h : m.InOrder living) {k : Calculation} {rest : List Calculation}
    (hperm : living.Perm (k :: rest)) {pool : Pool} (hpool : (m.context.discard k).pool? = some pool) :
    Reckoner.leased rest = (m.context.discard k).live := by
  cases h with
  | running hkeeps hidle => exact (hkeeps.discarded hperm).leased hpool
  | closed hdropped hliving hlive hclosed =>
    rw [hliving] at hperm
    exact absurd hperm (List.not_perm_nil_cons k rest)

theorem InOrder.setRefusal (h : m.InOrder living) (kind : RequestKind) (refuse : Bool) :
    { m with context := m.context.updatePool (·.setRefusal kind refuse) }.InOrder living := by
  have hbefore : ∀ pool, (m.context.updatePool (·.setRefusal kind refuse)).pool? = some pool →
      ∃ before, m.context.pool? = some before ∧ before.setRefusal kind refuse = pool := by
    intro pool hpool
    rw [Context.updatePool_pool?] at hpool
    exact Option.map_eq_some_iff.1 hpool
  -- A dropped context can still be told what to refuse, with its pages or without.
  cases h with
  | running hkeeps hidle =>
    have hkept : (m.context.updatePool (·.setRefusal kind refuse)).Keeps living := by
      refine .updatePool hkeeps.live hkeeps.backend fun foundry hengine => ?_
      have house := hkeeps.house foundry hengine
      exact ⟨house.accounted.setRefusal kind refuse, house.hosts⟩
    refine .running hkept fun pool hpool => ?_
    obtain ⟨before, hbefore, rfl⟩ := hbefore pool hpool
    exact hidle before hbefore
  | closed hdropped hliving hlive hpool =>
    refine .closed hdropped hliving (by rw [Context.updatePool_live, hlive]) fun pool hafter => ?_
    obtain ⟨before, hbefore, rfl⟩ := hbefore pool hafter
    exact hpool before hbefore

theorem InOrder.read (h : m.InOrder living) (seen : Nat) : { m with seen }.InOrder living := by
  cases h with
  | running hkeeps hidle => exact .running hkeeps hidle
  | closed hdropped hliving hlive hpool => exact .closed hdropped hliving hlive hpool

end Member

def Held.Belongs (contexts : Nat) (h : Held) : Prop :=
  match h.owner with
  | some id => id < contexts
  | none => h.calculation.page? = none

namespace Session

variable {s : Session} {id : Nat}

theorem ownedBy_some (id : Nat) (h : Held) :
    ownedBy id (some h) = if h.owner = some id then some h.calculation else none := by
  by_cases howner : h.owner = some id <;> simp [ownedBy, howner]

theorem ownedBy_none (id : Nat) : ownedBy id none = none := rfl

theorem leases_eq (s : Session) (id : Nat) : s.leases id = leased (s.living id) := by
  rw [leases, leased, living, List.countP_filterMap]
  congr 1
  funext held
  cases held with
  | none => rfl
  | some held =>
    rw [ownedBy_some]
    by_cases howner : held.owner = some id <;> simp [Held.leases, howner]

theorem living_adopted (calculations : List (Option Held)) (ks : List Calculation) (id j : Nat) :
    (calculations ++ ks.map fun k => some (Held.mk k (some id))).filterMap (ownedBy j) =
      calculations.filterMap (ownedBy j) ++ if id = j then ks else [] := by
  rw [List.filterMap_append, List.filterMap_map]
  congr 1
  by_cases hij : id = j
  · simp [ownedBy_some, hij]
  · simp [ownedBy_some, hij]

theorem living_discarded {calculations : List (Option Held)} {k : Nat} {h : Held}
    (hk : calculations[k]? = some (some h)) (j : Nat) :
    (calculations.filterMap (ownedBy j)).Perm
      ((ownedBy j (some h)).toList ++ (calculations.set k none).filterMap (ownedBy j)) := by
  induction calculations generalizing k with
  | nil => simp at hk
  | cons held rest ih =>
    cases k with
    | zero =>
      obtain rfl : held = some h := by simpa using hk
      rw [List.set_cons_zero, List.filterMap_cons_none (ownedBy_none j)]
      cases ho : ownedBy j (some h) with
      | none => rw [List.filterMap_cons_none ho]; rfl
      | some x => rw [List.filterMap_cons_some ho]; rfl
    | succ k =>
      have hrest := ih (k := k) (by simpa using hk)
      cases ho : ownedBy j held with
      | none => simpa [List.filterMap_cons, ho] using hrest
      | some x =>
        simp only [List.set_cons_succ, List.filterMap_cons, ho]
        exact (hrest.cons x).trans List.perm_middle.symm

structure InOrder (s : Session) : Prop where
  members : ∀ (id : Nat) (m : Member), s.contexts[id]? = some m → m.InOrder (s.living id)
  owners : ∀ h, some h ∈ s.calculations → h.Belongs s.contexts.length

theorem context?_eq_some {c : Context} (h : s.context? id = some c) :
    ∃ m, s.contexts[id]? = some m ∧ m.alive = true ∧ m.context = c := by
  unfold context? at h
  cases hm : s.contexts[id]? with
  | none => simp [hm] at h
  | some m =>
    simp only [hm, Option.ite_none_right_eq_some, Option.some.injEq] at h
    exact ⟨m, rfl, h⟩

theorem observed?_eq_some {m : Member} (h : s.observed? id = some m) :
    s.contexts[id]? = some m := by
  unfold observed? at h
  cases hm : s.contexts[id]? with
  | none => simp [hm] at h
  | some m' =>
    simp only [hm, Option.ite_none_right_eq_some] at h
    exact h.2

namespace InOrder

theorem context (h : s.InOrder) {c : Context} (hc : s.context? id = some c) :
    c.Keeps (s.living id) ∧ c.Idle := by
  obtain ⟨m, hm, halive, rfl⟩ := context?_eq_some hc
  exact (h.members id m hm).alive halive

/-- One context changes, and with it whatever calculations it has. -/
theorem update (h : s.InOrder) {m : Member} (hm : s.contexts[id]? = some m) {f : Member → Member}
    {calculations : List (Option Held)}
    (hmember : (f m).InOrder (calculations.filterMap (ownedBy id)))
    (hothers : ∀ j, id ≠ j → (s.living j).Perm (calculations.filterMap (ownedBy j)))
    (howners : ∀ held, some held ∈ calculations → held.Belongs s.contexts.length)
    (builders : List (Option Builder)) :
    InOrder ⟨s.contexts.modify id f, calculations, builders⟩ where
  members j m' hm' := by
    dsimp only at hm'
    by_cases hij : id = j
    · subst hij
      rw [List.getElem?_modify_eq, hm] at hm'
      obtain rfl := Option.some.inj hm'
      exact hmember
    · rw [List.getElem?_modify_ne _ _ hij] at hm'
      exact (h.members j m' hm').perm (hothers j hij)
  owners := by
    rw [List.length_modify]
    exact howners

theorem living_of_le (h : s.InOrder) (hid : s.contexts.length ≤ id) : s.living id = [] := by
  rw [living, List.filterMap_eq_nil_iff]
  intro held hheld
  cases held with
  | none => rfl
  | some held =>
    rw [ownedBy_some, if_neg]
    intro howner
    have hbelongs := h.owners held hheld
    rw [Held.Belongs, howner] at hbelongs
    exact Nat.not_lt.2 hid hbelongs

theorem addContext (h : s.InOrder) {c : Context} (hkeeps : c.Keeps []) (hidle : c.Idle)
    (observed : Bool) : (s.addContext c observed).InOrder where
  members j m hm := by
    rw [Session.addContext] at hm
    change m.InOrder (s.living j)
    by_cases hj : j < s.contexts.length
    · rw [List.getElem?_append_left hj] at hm
      exact h.members j m hm
    · rw [List.getElem?_append_right (Nat.not_lt.1 hj)] at hm
      obtain rfl := List.mem_singleton.1 (List.mem_of_getElem? hm)
      rw [h.living_of_le (Nat.not_lt.1 hj)]
      exact .running hkeeps hidle
  owners held hheld := by
    have hbelongs := h.owners held hheld
    unfold Held.Belongs at hbelongs ⊢
    rw [Session.addContext, List.length_append]
    cases howner : held.owner with
    | none =>
      rw [howner] at hbelongs
      exact hbelongs
    | some owner =>
      rw [howner] at hbelongs
      exact Nat.lt_add_right 1 hbelongs

theorem adopt (h : s.InOrder) {c c' : Context} (hc : s.context? id = some c)
    {ks : List Calculation} (hkeeps : c'.Keeps (s.living id ++ ks)) (hidle : c'.Idle)
    (builders : List (Option Builder)) :
    InOrder ⟨s.contexts.modify id fun m => { m with context := c' },
      s.calculations ++ ks.map fun k => some ⟨k, some id⟩, builders⟩ := by
  obtain ⟨m, hm, -, -⟩ := context?_eq_some hc
  refine h.update hm ?_ ?_ ?_ builders
  · rw [living_adopted, if_pos rfl]
    exact .running hkeeps hidle
  · intro j hij
    rw [living_adopted, if_neg hij, List.append_nil]
    exact .refl _
  · intro held hheld
    rcases List.mem_append.1 hheld with hheld | hheld
    · exact h.owners held hheld
    · obtain ⟨k, -, hk⟩ := List.mem_map.1 hheld
      obtain rfl := Option.some.inj hk
      exact (List.getElem?_eq_some_iff.1 hm).1

theorem modify (h : s.InOrder) {m : Member} (hm : s.contexts[id]? = some m) {f : Member → Member}
    (hmember : (f m).InOrder (s.living id)) :
    { s with contexts := s.contexts.modify id f }.InOrder :=
  h.update hm hmember (fun _ _ => .refl _) h.owners s.builders

theorem keep (h : s.InOrder) {c : Context} (hc : s.context? id = some c)
    {result : Except Error Calculation} {c' : Context} (hfinalize : c.Finalizing false (result, c'))
    (notes : List Note) (builders : List (Option Builder)) :
    (Session.keep { s with builders } id ⟨result, c', notes⟩).session.InOrder := by
  obtain ⟨hkeeps, hidle⟩ := h.context hc
  have hadopted :=
    h.adopt hc (hkeeps.finalized hfinalize) (hidle.finalized hkeeps hfinalize) builders
  cases result with
  | ok k => exact hadopted
  | error e =>
    rw [Context.created, List.map_nil, List.append_nil] at hadopted
    exact hadopted

theorem load (h : s.InOrder) {k : Calculation} (hpage : k.page? = none) :
    (s.addCalculation k none).InOrder where
  members j m hm := by
    have hsame : (s.addCalculation k none).living j = s.living j := by
      simp [living, addCalculation, ownedBy_some]
    rw [hsame]
    exact h.members j m hm
  owners held hheld := by
    rcases List.mem_append.1 hheld with hheld | hheld
    · exact h.owners held hheld
    · obtain rfl := Option.some.inj (List.mem_singleton.1 hheld)
      exact hpage

theorem discard (h : s.InOrder) {k : Nat} {held : Held} (hk : s.calculation? k = some held) :
    (s.discard k held).InOrder := by
  have hk : s.calculations[k]? = some (some held) := Option.join_eq_some_iff.1 hk
  have hleft : ∀ j, (s.living j).Perm ((ownedBy j (some held)).toList ++
      (s.calculations.set k none).filterMap (ownedBy j)) := living_discarded hk
  have howners : ∀ left, some left ∈ s.calculations.set k none → left.Belongs s.contexts.length := by
    intro left hmem
    rcases List.mem_or_eq_of_mem_set hmem with hmem | hnone
    · exact h.owners left hmem
    · contradiction
  have hbelongs := h.owners held (List.mem_of_getElem? hk)
  unfold Session.discard
  cases howner : held.owner with
  | none =>
    refine ⟨fun j m hm => (h.members j m hm).perm ?_, howners⟩
    change (s.living j).Perm ((s.calculations.set k none).filterMap (ownedBy j))
    simpa [ownedBy_some, howner] using hleft j
  | some owner =>
    rw [Held.Belongs, howner] at hbelongs
    have hm := List.getElem?_eq_getElem hbelongs
    refine h.update hm ?_ ?_ howners s.builders
    · have hperm := hleft owner
      rw [ownedBy_some, if_pos howner] at hperm
      rw [leases_eq]
      exact (h.members owner _ hm).discarded hperm
    · intro j hij
      simpa [ownedBy_some, howner, hij] using hleft j

theorem dropContext (h : s.InOrder) {c : Context} (hc : s.context? id = some c) :
    (s.dropContext id).InOrder := by
  obtain ⟨m, hm, -, rfl⟩ := context?_eq_some hc
  obtain ⟨hkeeps, hidle⟩ := h.context hc
  refine h.modify hm ?_
  rw [leases_eq]
  exact .settle hkeeps hidle

theorem setBuilders (h : s.InOrder) (builders : List (Option Builder)) :
    { s with builders }.InOrder := ⟨h.members, h.owners⟩

end InOrder

/-! What a command does not find leaves the session as it is. -/

theorem withContext_session {P : Session → Prop} {f : Context → Reply} (h : P s)
    (hf : ∀ c, s.context? id = some c → P (f c).session) : P (s.withContext id f).session := by
  unfold withContext
  cases hc : s.context? id with
  | none => exact h
  | some c => exact hf c hc

theorem withCalculation_session {P : Session → Prop} {f : Held → Reply} (h : P s)
    (hf : ∀ held, s.calculation? id = some held → P (f held).session) :
    P (s.withCalculation id f).session := by
  unfold withCalculation
  cases hk : s.calculation? id with
  | none => exact h
  | some held => exact hf held hk

theorem withBuilder_session {P : Session → Prop} {f : Builder → Reply} (h : P s)
    (hf : ∀ b, P (f b).session) : P (s.withBuilder id f).session := by
  unfold withBuilder
  cases s.builder? id with
  | none => exact h
  | some b => exact hf b

theorem keepSlots_session (owner : Nat) (s : Session) (slots : List Slot) :
    (keepSlots owner s slots).2 = { s with
      calculations := s.calculations ++
        (Batch.compiled slots).map fun k => some ⟨k, some owner⟩ } := by
  fun_induction keepSlots owner s slots with
  | case1 s => simp
  | case2 s k rest entries after hrest ih =>
    rw [hrest] at ih
    dsimp only at ih
    simp [ih, Slot.calculation?, addCalculation]
  | case3 s e rest entries after hrest ih =>
    rw [hrest] at ih
    dsimp only at ih
    simp [ih, Slot.calculation?]
  | case4 s rest entries after hrest ih =>
    rw [hrest] at ih
    dsimp only at ih
    simp [ih, Slot.calculation?]

theorem page?_ofStream {stream : Stream} {k : Calculation}
    (h : Calculation.ofStream stream = .ok k) : k.page? = none := by
  unfold Calculation.ofStream at h
  cases hp : Bytecode.Program.ofStream stream with
  | error e => rw [hp] at h; contradiction
  | ok p =>
    rw [hp] at h
    obtain rfl := Except.ok.inj h
    rfl

theorem InOrder.step (h : s.InOrder) (A : Arithmetic) (command : Command) :
    (s.step A command).session.InOrder := by
  cases command with
  | newContext platform backend options =>
    exact h.addContext (.fresh platform backend options) (.fresh platform backend options) false
  | newObserved platform options =>
    exact h.addContext (.fresh platform .native options) (.fresh platform .native options) true
  | setOptions id options =>
    refine withContext_session h fun c hc => ?_
    obtain ⟨m, hm, -, -⟩ := context?_eq_some hc
    obtain ⟨hkeeps, hidle⟩ := h.context hc
    exact h.modify hm (.running ⟨hkeeps.live, hkeeps.backend, hkeeps.house⟩ hidle)
  | status id => exact withContext_session h fun _ _ => h
  | compile id names source options =>
    refine withContext_session h fun c hc => ?_
    exact h.keep hc (c.compileScoped_outcome A _ _ _ false) _ s.builders
  | compileItem id item =>
    refine withContext_session h fun c hc => ?_
    exact h.keep hc (c.compileScoped_outcome A _ _ _ false) _ s.builders
  | compileBatch id keepGoing items =>
    refine withContext_session h fun c hc => ?_
    obtain ⟨hkeeps, hidle⟩ := h.context hc
    obtain ⟨hkept, hsettled⟩ := hkeeps.compileBatch hidle A keepGoing items
    dsimp only
    rw [keepSlots_session]
    exact h.adopt hc hkept hsettled s.builders
  | calculate id args => exact withCalculation_session h fun _ _ => h
  | calculateUnchecked id args => exact withCalculation_session h fun _ _ => h
  | describe id => exact withCalculation_session h fun _ _ => h
  | free owner id =>
    exact withContext_session h fun _ _ => withCalculation_session h fun _ hk => h.discard hk
  | dropCalculation id => exact withCalculation_session h fun _ hk => h.discard hk
  | dropContext id => exact withContext_session h fun _ hc => h.dropContext hc
  | load stream =>
    rw [Session.step]
    cases hk : Calculation.ofStream stream with
    | ok k => exact h.load (page?_ofStream hk)
    | error e => exact h
  | newBuilder id => exact withContext_session h fun _ _ => h.setBuilders _
  | build id calls => exact withBuilder_session h fun _ => h.setBuilders _
  | finalize owner id =>
    refine withContext_session h fun c hc => withBuilder_session h fun b => ?_
    exact h.keep hc (c.finalize_outcome b false) [] _
  | abandon owner id =>
    exact withContext_session h fun _ _ => withBuilder_session h fun _ => h.setBuilders _
  | setRefusal id kind refuse =>
    rw [Session.step]
    cases hm : s.observed? id with
    | none => exact h
    | some m =>
      have hm := observed?_eq_some hm
      exact h.modify hm ((h.members id m hm).setRefusal kind refuse)
  | allocatorCalls id =>
    rw [Session.step]
    cases hm : s.observed? id with
    | none => exact h
    | some m =>
      have hm := observed?_eq_some hm
      exact h.modify hm ((h.members id m hm).read _)

theorem InOrder.stepAll (h : s.InOrder) (A : Arithmetic) (commands : List Command) :
    (s.stepAll A commands).InOrder := by
  induction commands generalizing s with
  | nil => exact h
  | cons command rest ih => exact ih (h.step A command)

theorem InOrder.empty : Session.empty.InOrder where
  members := by simp [Session.empty]
  owners := by simp [Session.empty]

theorem InOrder.balanced (h : s.InOrder) : s.Balanced where
  live id m hm := by
    cases h.members id m hm with
    | running hkeeps hidle => exact hkeeps.live
    | closed hdropped hliving hlive hpool => rw [hlive, hliving, List.length_nil]
  refs id m pool hm hpool n page hpage := by
    cases h.members id m hm with
    | running hkeeps hidle =>
      obtain ⟨foundry, hengine, rfl⟩ := Context.pool?_eq_some_iff.1 hpool
      rw [(hkeeps.house foundry hengine).hosts.refs n page hpage, headcount_tenantsOf]
    | closed hdropped hliving hlive hclosed =>
      rw [(hclosed pool hpool).1] at hpage
      contradiction
  leases id m pool hm hpool := by
    rw [leases_eq]
    exact (h.members id m hm).leased hpool
  settled id m pool hm hpool := by
    cases h.members id m hm with
    | running hkeeps hidle => exact hidle pool hpool
    | closed hdropped hliving hlive hclosed => exact (hclosed pool hpool).2
  executable held hheld n hn := by
    have hbelongs := h.owners held hheld
    unfold Held.Belongs at hbelongs
    cases howner : held.owner with
    | none =>
      rw [howner] at hbelongs
      rw [hbelongs] at hn
      contradiction
    | some id =>
      rw [howner] at hbelongs
      have hm := List.getElem?_eq_getElem hbelongs
      have hliving : held.calculation ∈ s.living id :=
        List.mem_filterMap.2 ⟨some held, hheld, by rw [ownedBy_some, if_pos howner]⟩
      cases h.members id _ hm with
      | running hkeeps hidle =>
        obtain ⟨pool, page, hpool, hpage, hprotection⟩ := hkeeps.executable hidle hliving hn
        exact ⟨id, _, pool, page, rfl, hm, hpool, hpage, hprotection⟩
      | closed hdropped hnone hlive hpool =>
        rw [hnone] at hliving
        contradiction

/-- Whatever the commands and whichever requests the allocators refuse, the books balance. -/
theorem stepAll_balanced (A : Arithmetic) (commands : List Command) :
    (Session.empty.stepAll A commands).Balanced :=
  (InOrder.empty.stepAll A commands).balanced

/-- A batch is taken back since its page cannot be frozen, and the next one shares the page that was
left; the context is dropped, and then one of the two who share. -/
theorem stepAll_balanced_shared :
    let s := Session.empty.stepAll .whole
      [.newObserved ⟨.streamed .whole 0, ⟨64, by decide⟩, fun _ _ => false⟩ .optimized,
        .compileItem 0 ⟨"$0", ⟨[], 1⟩⟩, .setRefusal 0 .freeze true,
        .compileBatch 0 true [⟨"1", ⟨[], 0⟩⟩, ⟨"2", ⟨[], 0⟩⟩], .setRefusal 0 .freeze false,
        .compileBatch 0 true [⟨"1", ⟨[], 0⟩⟩, ⟨"2", ⟨[], 0⟩⟩], .dropContext 0, .dropCalculation 1]
    s.contexts.map (fun m => (m.context.live, m.context.pool?.map (·.pages.map Page.refs))) =
      [(2, some [1, 1])] ∧ s.Balanced :=
  ⟨rfl, stepAll_balanced _ _⟩

end Session

end Reckoner
