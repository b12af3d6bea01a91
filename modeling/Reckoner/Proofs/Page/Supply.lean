import Reckoner.Proofs.Page.Trace

/-! Where the page for new code comes from: a free page that is long enough, or a new one if none is.
Whatever the allocator answers, the pages keep their users and their bytes. -/
namespace Reckoner

namespace Pool

variable {p q : Pool} {id need : Nat}

def lengths (p : Pool) : List Nat := p.pages.map Page.length

@[simp] theorem length_lengths (p : Pool) : p.lengths.length = p.pages.length := List.length_map _

theorem lengthOf_eq_getD (p : Pool) (id : Nat) : p.lengthOf id = p.lengths[id]?.getD 0 := by
  rw [lengthOf, lengths, List.getElem?_map]
  cases p.pages[id]? <;> rfl

theorem lengths_update {f : Page → Page} (h : ∀ page, (f page).length = page.length) :
    (p.update id f).lengths = p.lengths := by
  apply List.ext_getElem?
  intro j
  simp only [lengths, update, List.getElem?_map, List.getElem?_modify]
  by_cases hij : id = j
  · cases p.pages[j]? <;> simp [hij, h]
  · simp [hij]

@[simp] theorem lengths_frozen (p : Pool) (id : Nat) : (p.frozen id).lengths = p.lengths :=
  lengths_update (p := p) fun _ => rfl

@[simp] theorem lengths_opened (p : Pool) (length : Nat) :
    (p.opened length).lengths = p.lengths ++ [length] := by
  simp [lengths, Page.fresh]

@[simp] theorem lengths_write (p : Pool) (id offset : Nat) (code : List UInt8) :
    (p.write id offset code).lengths = p.lengths :=
  lengths_update (p := p) fun _ => rfl

@[simp] theorem lengths_giveBack (p : Pool) (id : Nat) : (p.giveBack id).lengths = p.lengths :=
  lengths_update (p := p) fun _ => rfl

def Short (p : Pool) (need : Nat) : Prop := ∀ id ∈ p.free, p.lengthOf id < p.lengthFor need

/-- The pages keep their users and their bytes, and pages that come have no users. -/
structure Kept (before after : List Page) : Prop where
  same : ∀ (id : Nat) (page : Page), before[id]? = some page →
    ∃ page', after[id]? = some page' ∧ page'.refs = page.refs ∧ page'.memory = page.memory
  fresh : ∀ (id : Nat) (page : Page), before[id]? = none → after[id]? = some page → page.refs = 0

theorem Kept.refl (pages : List Page) : Kept pages pages where
  same id page hpage := ⟨page, hpage, rfl, rfl⟩
  fresh id page hnone hpage := by simp [hnone] at hpage

theorem Kept.modify (pages : List Page) (id : Nat) {f : Page → Page}
    (h : ∀ page, (f page).refs = page.refs ∧ (f page).memory = page.memory) :
    Kept pages (pages.modify id f) where
  same j page hpage := by
    rw [List.getElem?_modify, hpage]
    by_cases hij : id = j
    · exact ⟨f page, by simp [hij], h page⟩
    · exact ⟨page, by simp [hij], rfl, rfl⟩
  fresh j page hnone hpage := by simp [List.getElem?_modify, hnone] at hpage

theorem Kept.opened (p : Pool) (length : Nat) : Kept p.pages (p.opened length).pages where
  same id page hpage := by
    have hlt : id < p.pages.length := (List.getElem?_eq_some_iff.1 hpage).1
    exact ⟨page, by rw [opened_pages, List.getElem?_append_left hlt, hpage], rfl, rfl⟩
  fresh id page hnone hpage := by
    rw [opened_pages, List.getElem?_append_right (List.getElem?_eq_none_iff.1 hnone)] at hpage
    obtain rfl := List.mem_singleton.1 (List.mem_of_getElem? hpage)
    rfl

structure Supplies (p : Pool) (need : Nat) (events : List Page.Event) (q : Pool) : Prop where
  history : q.allocator.history = p.allocator.history ++ events
  pageSize : q.allocator.pageSize = p.allocator.pageSize
  active : q.active = p.active
  lengths : q.lengths = p.lengths ∨ q.lengths = p.lengths ++ [p.lengthFor need] ∧ p.Short need
  kept : Kept p.pages q.pages
  allocates : ∀ e ∈ events, ∀ length, e.request? = some (.allocate length) → p.Short need
  freezes : ∀ e ∈ events, ∀ id length, e.request? ≠ some (.freeze id length)

theorem Acquisition.supplies {result : Except Error Nat} (h : p.Acquisition need (result, q)) :
    ∃ events, p.Supplies need events q := by
  cases h with
  | taken id rest hfree hlength hwritable =>
    exact ⟨_, rfl, rfl, rfl, .inl rfl, .refl _, by simp [Page.Event.request?],
      by simp [Page.Event.request?]⟩
  | renewed id rest hfree hlength page hpage hexecutable =>
    refine ⟨_, List.append_assoc _ _ _, rfl, rfl, .inl ?_, .modify _ id fun _ => ⟨rfl, rfl⟩,
      by simp [Page.Event.request?], by simp [Page.Event.request?]⟩
    exact lengths_update (p := p) fun _ => rfl
  | notRenewed id rest hfree hlength page hpage hexecutable hrefuses =>
    exact ⟨_, rfl, rfl, rfl, .inl rfl, .refl _, by simp [Page.Event.request?],
      by simp [Page.Event.request?]⟩
  | opened hshort =>
    exact ⟨_, List.append_assoc _ _ _, rfl, rfl, .inr ⟨lengths_opened p _, hshort⟩, .opened p _,
      fun _ _ _ _ => hshort, by simp [Page.Event.request?]⟩
  | notOpened hshort hrefuses =>
    exact ⟨_, rfl, rfl, rfl, .inl rfl, .refl _, fun _ _ _ _ => hshort,
      by simp [Page.Event.request?]⟩

end Pool

end Reckoner
