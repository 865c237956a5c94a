import SmallAIOS.Kernel.Mem.Global
import SmallAIOS.Lib.Panic
import Mathlib.Data.List.Pairwise

/-!
# The objects of the slab allocator

An object of a class is at a multiple of its size, within a page of the class.
It is either outstanding or in the free list of its page: this is the invariant
of the allocator and of the memory it shares with its clients (`SlabInv`),
given the outstanding objects and the free lists. Operations move one object
from one side to the other, and a new page adds its objects to the free ones.
The invariant reads only the headers of the pages and the first words of the
free objects (`SlabInv.congr`).
-/

namespace SmallAIOS.Mem

open Lib List Function Nat

variable {c : Fin numClasses} {page a a' size : ℕ}

/-! ## Size classes -/

theorem sizeClassIndex_spec (h : sizeClassIndex size = some c) : size ≤ sizeClasses c := by
  simpa using find?_some h

theorem exists_sizeClassIndex (h : size ≤ 2048) : ∃ c, sizeClassIndex size = some c := by
  rw [← Option.isSome_iff_exists, sizeClassIndex, find?_isSome]
  exact ⟨⟨7, by decide⟩, mem_finRange _, decide_eq_true (h.trans (by decide))⟩

section

variable (c)

/-- What the sizes of the classes have in common. -/
theorem sizeClasses_spec :
    (∃ k, 4 ≤ k ∧ k ≤ 11 ∧ sizeClasses c = 2 ^ k) ∧ dataStart (sizeClasses c) = sizeClasses c ∧
      (slabCapacity (sizeClasses c) + 1) * sizeClasses c = pageSize4K := by
  refine ⟨⟨c.val + 4, by omega, ?_, ?_⟩, ?_, ?_⟩
  · have := c.isLt
    simp only [numClasses] at this
    omega
  all_goals
    revert c
    decide

theorem sizeClasses_pos : 16 ≤ sizeClasses c := by
  revert c
  decide

theorem slabCapacity_ne_zero : slabCapacity (sizeClasses c) ≠ 0 := by
  revert c
  decide

theorem slabCapacity_lt : slabCapacity (sizeClasses c) < 2 ^ 12 := by
  revert c
  decide

theorem sizeClasses_dvd : sizeClasses c ∣ pageSize4K :=
  ⟨slabCapacity (sizeClasses c) + 1, by rw [mul_comm, (sizeClasses_spec c).2.2]⟩

end

/-- The objects of a slab of the class `c`. -/
abbrev objects (page : ℕ) (c : Fin numClasses) : List ℕ := slabObjects page (sizeClasses c)

theorem mem_objects : a ∈ objects page c ↔
    ∃ i < slabCapacity (sizeClasses c), a = page + (i + 1) * sizeClasses c := by
  rw [objects, slabObjects, mem_map, (sizeClasses_spec c).2.1]
  simp only [mem_range]
  refine exists_congr fun i => and_congr_right fun _ => ?_
  rw [add_mul, one_mul, add_comm (i * _)]
  exact eq_comm

theorem length_objects : (objects page c).length = slabCapacity (sizeClasses c) := by
  rw [objects, slabObjects, length_map, length_range]

/-- An object is within its page, after the header. -/
theorem objects_bounds (h : a ∈ objects page c) :
    page + 16 ≤ a ∧ a + sizeClasses c ≤ page + pageSize4K := by
  obtain ⟨i, hi, rfl⟩ := mem_objects.1 h
  have hpos := sizeClasses_pos c
  have h1 := mul_le_mul_right (sizeClasses c) (show i + 1 + 1 ≤ _ + 1 from succ_le_succ hi)
  rw [(sizeClasses_spec c).2.2, add_mul (i + 1)] at h1
  have h2 := Nat.le_mul_of_pos_left (sizeClasses c) (Nat.succ_pos i)
  rw [succ_eq_add_one] at h2
  omega

theorem nodup_objects : (objects page c).Nodup := by
  refine List.Nodup.map (fun i j hij => ?_) nodup_range
  have hpos := sizeClasses_pos c
  exact eq_of_mul_eq_mul_right (by omega) (add_left_cancel (add_left_cancel hij))

section

variable (h : a ∈ objects page c)
include h

/-- Two objects of a slab do not overlap. -/
theorem objects_disjoint (h' : a' ∈ objects page c) (hne : a ≠ a') :
    a + sizeClasses c ≤ a' ∨ a' + sizeClasses c ≤ a := by
  obtain ⟨i, -, rfl⟩ := mem_objects.1 h
  obtain ⟨j, -, rfl⟩ := mem_objects.1 h'
  rcases lt_trichotomy i j with hij | rfl | hij
  · have := mul_le_mul_right (sizeClasses c) (show i + 1 + 1 ≤ j + 1 by omega)
    rw [add_mul (i + 1)] at this
    omega
  · exact absurd rfl hne
  · have := mul_le_mul_right (sizeClasses c) (show j + 1 + 1 ≤ i + 1 by omega)
    rw [add_mul (j + 1)] at this
    omega

theorem objects_dvd (hp : page % pageSize4K = 0) : sizeClasses c ∣ a := by
  obtain ⟨i, -, rfl⟩ := mem_objects.1 h
  have := (sizeClasses_dvd c).trans (dvd_of_mod_eq_zero hp)
  exact Nat.dvd_add this (Nat.dvd_mul_left ..)

/-- An object has the alignments that are no more than its size. -/
theorem two_pow_dvd_object {j : ℕ} (hp : page % pageSize4K = 0)
    (hle : 2 ^ j ≤ sizeClasses c) : 2 ^ j ∣ a := by
  obtain ⟨⟨k, -, -, hk⟩, -, -⟩ := sizeClasses_spec c
  have hdvd := objects_dvd h hp
  rw [hk] at hdvd hle
  exact (two_pow_dvd_of_le hle).trans hdvd

theorem object_ne_zero : a ≠ 0 := by
  have := (objects_bounds h).1
  omega

end

theorem alignDown_object (h : a ∈ objects page c) (hp : page % pageSize4K = 0) :
    alignDown a pageSize4K = page := by
  have := objects_bounds h
  have := sizeClasses_pos c
  rw [alignDown_page, pageSize4K] at *
  omega

/-! ## The invariant -/

namespace SlabAllocator

variable {s s' : SlabAllocator} {m m' : Memory} {L : ℕ → List ℕ}
  {objs objs' : List (ℕ × Fin numClasses)} {l : List ℕ}

/-- The pages of all classes. -/
def pages (s : SlabAllocator) : List ℕ :=
  (finRange numClasses).flatMap fun c => (s.classes c).slabs

theorem mem_pages : page ∈ s.pages ↔ ∃ c, page ∈ (s.classes c).slabs := by
  simp [pages]

theorem length_slabs_le (s : SlabAllocator) (c : Fin numClasses) :
    (s.classes c).slabs.length ≤ s.pages.length := by
  refine List.Sublist.length_le (sublist_flatten_of_mem ?_)
  exact mem_map_of_mem (mem_finRange c)

theorem pages_new : new.pages = [] :=
  flatMap_eq_nil_iff.2 fun _ _ => rfl

/-- The free list of the slab at `page` is `l`. -/
structure SlabOk (c : Fin numClasses) (page : ℕ) (m : Memory) (l : List ℕ) : Prop where
  chain : Chain m.word (m.header page).freeList l
  nodup : l.Nodup
  subset : l ⊆ objects page c
  allocated : (m.header page).allocated + l.length = slabCapacity (sizeClasses c)

/-- A slab is read through its header and its free objects. -/
theorem SlabOk.congr (h : SlabOk c page m l) (hh : m'.header page = m.header page)
    (hw : ∀ a ∈ l, m'.word a = m.word a) : SlabOk c page m' l where
  chain := by
    rw [hh]
    exact h.chain.congr hw
  nodup := h.nodup
  subset := h.subset
  allocated := by
    rw [hh]
    exact h.allocated

/-- The objects `objs`, of the classes they come with, are outstanding, and the
    free list of each page is that of `L`. -/
structure SlabInv (objs : List (ℕ × Fin numClasses)) (L : ℕ → List ℕ) (s : SlabAllocator)
    (m : Memory) : Prop where
  objSize : ∀ c, (s.classes c).objSize = sizeClasses c
  nodup : s.pages.Nodup
  aligned : ∀ p ∈ s.pages, p % pageSize4K = 0
  slab : ∀ c, ∀ p ∈ (s.classes c).slabs, SlabOk c p m (L p)
  mem_slabs : ∀ y ∈ objs, ∃ p ∈ (s.classes y.2).slabs, y.1 ∈ objects p y.2
  notMem : ∀ y ∈ objs, ∀ p ∈ s.pages, y.1 ∉ L p
  objs_nodup : (objs.map (·.1)).Nodup

theorem SlabInv.new (m : Memory) (L : ℕ → List ℕ) : SlabInv [] L new m where
  objSize _ := rfl
  nodup := by simp [pages_new]
  aligned := by simp [pages_new]
  slab := by simp [SlabAllocator.new, SlabClass.new]
  mem_slabs := by simp
  notMem := by simp
  objs_nodup := by simp

theorem SlabInv.perm (h : SlabInv objs L s m) (hp : objs.Perm objs') : SlabInv objs' L s m where
  __ := h
  mem_slabs y hy := h.mem_slabs y (hp.mem_iff.2 hy)
  notMem y hy := h.notMem y (hp.mem_iff.2 hy)
  objs_nodup := (hp.map _).nodup_iff.1 h.objs_nodup

/-- The invariant reads only the headers and the free objects. -/
theorem SlabInv.congr (h : SlabInv objs L s m) (hh : ∀ p ∈ s.pages, m'.header p = m.header p)
    (hw : ∀ p ∈ s.pages, ∀ a ∈ L p, m'.word a = m.word a) : SlabInv objs L s m' where
  __ := h
  slab c p hp :=
    (h.slab c p hp).congr (hh p (mem_pages.2 ⟨c, hp⟩)) (hw p (mem_pages.2 ⟨c, hp⟩))

variable {p : ℕ}

section

variable (h : SlabInv objs L s m)
include h

/-- The page of an object of a page. -/
theorem SlabInv.page_eq (hp : p ∈ (s.classes c).slabs) (ha : a ∈ objects p c) :
    alignDown a pageSize4K = p :=
  alignDown_object ha (h.aligned p (mem_pages.2 ⟨c, hp⟩))

theorem SlabInv.page_eq_of_mem (hp : p ∈ s.pages) (ha : a ∈ L p) : alignDown a pageSize4K = p := by
  obtain ⟨c, hc⟩ := mem_pages.1 hp
  exact h.page_eq hc ((h.slab c p hc).subset ha)

/-- A page is in one class only. -/
theorem SlabInv.class_unique {c c' : Fin numClasses} (hp : p ∈ (s.classes c).slabs)
    (hp' : p ∈ (s.classes c').slabs) : c = c' := by
  by_contra hne
  have hdisj := (nodup_flatMap.1 h.nodup).2
  have : Std.Symm (onFun List.Disjoint fun c => (s.classes c).slabs) :=
    ⟨fun _ _ hd _ h1 h2 => hd h2 h1⟩
  exact hdisj.forall (mem_finRange c) (mem_finRange c') hne hp hp'

end

/-! ## The operations -/

/-- The first free object of a page becomes outstanding. -/
theorem SlabInv.take (h : SlabInv objs L s m) (hp : p ∈ (s.classes c).slabs) (hl : L p = a :: l)
    (hok : SlabOk c p m' l) (hh : ∀ q, q ≠ p → m'.header q = m.header q) (hw : m'.word = m.word) :
    SlabInv ((a, c) :: objs) (update L p l) s m' := by
  have hokp := h.slab c p hp
  have hobj : a ∈ objects p c := hokp.subset (hl ▸ mem_cons_self)
  have hnd := hokp.nodup
  rw [hl, nodup_cons] at hnd
  refine ⟨h.objSize, h.nodup, h.aligned, fun c' q hq => ?_, ?_, ?_, ?_⟩
  · by_cases hqp : q = p
    · subst hqp
      obtain rfl := h.class_unique hp hq
      rwa [update_self]
    · rw [update_of_ne hqp]
      exact (h.slab c' q hq).congr (hh q hqp) fun x _ => congrFun hw x
  · exact forall_mem_cons.2 ⟨⟨p, hp, hobj⟩, h.mem_slabs⟩
  · refine forall_mem_cons.2 ⟨fun q hq => ?_, fun y hy q hq => ?_⟩
    · by_cases hqp : q = p
      · rw [hqp, update_self]
        exact hnd.1
      · -- An object is in the list of its own page only.
        rw [update_of_ne hqp]
        intro hmem
        exact hqp ((h.page_eq_of_mem hq hmem).symm.trans (h.page_eq hp hobj))
    · have hyq := h.notMem y hy q hq
      by_cases hqp : q = p
      · rw [hqp, hl] at hyq
        rw [hqp, update_self]
        exact fun hmem => hyq (mem_cons_of_mem _ hmem)
      · rwa [update_of_ne hqp]
  · rw [map_cons, nodup_cons]
    refine ⟨fun hmem => ?_, h.objs_nodup⟩
    obtain ⟨y, hy, hya⟩ := mem_map.1 hmem
    refine h.notMem y hy p (mem_pages.2 ⟨c, hp⟩) ?_
    rw [hl, hya]
    exact mem_cons_self

section

variable (hc : sizeClassIndex size = some c)
include hc

/-- `allocate` takes the first free object of the first slab that has one. -/
theorem SlabInv.allocate (h : SlabInv objs L s m) :
    ((∀ p ∈ (s.classes c).slabs, L p = []) ∧
      s.allocate m size = some (.error .slabExhausted, m)) ∨
    ∃ p ∈ (s.classes c).slabs, ∃ a l m', L p = a :: l ∧ s.allocate m size = some (.ok a, m') ∧
      SlabInv ((a, c) :: objs) (update L p l) s m' := by
  rw [SlabAllocator.allocate, hc]
  dsimp only
  rw [SlabClass.allocate]
  cases hf : (s.classes c).slabs.find? fun page => (m.header page).freeList != 0 with
  | none =>
    refine .inl ⟨fun p hp => ?_, rfl⟩
    have h0 : (m.header p).freeList = 0 := by simpa using find?_eq_none.1 hf p hp
    have hchain := (h.slab c p hp).chain
    rw [h0] at hchain
    exact hchain.unique .nil
  | some p =>
    have hp := mem_of_find?_eq_some hf
    have h0 : (m.header p).freeList ≠ 0 := by simpa using find?_some hf
    have hok := h.slab c p hp
    obtain ⟨l, hl, hchain⟩ := hok.chain.pop h0
    -- The counter is less than the capacity, and does not overflow.
    have hcap := slabCapacity_lt c
    have halloc := hok.allocated
    have hnd := hok.nodup
    have hsub := hok.subset
    rw [hl, length_cons] at halloc
    rw [hl, nodup_cons] at hnd
    rw [hl, cons_subset] at hsub
    dsimp only
    rw [if_neg (by omega)]
    refine .inr ⟨p, hp, (m.header p).freeList, l, _, hl, rfl, h.take hp hl ?_ ?_ rfl⟩
    · refine ⟨?_, hnd.2, hsub.2, ?_⟩
      · simpa using hchain
      · simp only [update_self]
        omega
    · exact fun q hq => update_of_ne hq _ _

/-- `free` puts an outstanding object in front of the free list of its page. -/
theorem SlabInv.free (h : SlabInv ((a, c) :: objs) L s m) :
    ∃ p ∈ (s.classes c).slabs, a ∈ objects p c ∧ ∃ m', s.free m a size = some (.ok (), m') ∧
      SlabInv objs (update L p (a :: L p)) s m' := by
  obtain ⟨p, hp, hobj⟩ := h.mem_slabs (a, c) mem_cons_self
  have hpage := h.page_eq hp hobj
  have hp' := mem_pages.2 ⟨c, hp⟩
  have hok := h.slab c p hp
  have ha : a ∉ L p := h.notMem (a, c) mem_cons_self p hp'
  have hnd : (a :: L p).Nodup := nodup_cons.2 ⟨ha, hok.nodup⟩
  have hsub : a :: L p ⊆ objects p c := cons_subset.2 ⟨hobj, hok.subset⟩
  -- The slab is not full, so that the counter does not underflow.
  have hlen := (subperm_of_subset hnd hsub).length_le
  rw [length_objects, length_cons] at hlen
  have halloc := hok.allocated
  obtain ⟨hmap, hnodup⟩ := nodup_cons.1 h.objs_nodup
  refine ⟨p, hp, hobj, _, by
    rw [SlabAllocator.free, hc]
    dsimp only
    rw [SlabClass.free, hpage, if_pos hp, if_neg (by omega)], ?_⟩
  refine ⟨h.objSize, h.nodup, h.aligned, fun c' q hq => ?_,
    fun y hy => h.mem_slabs y (mem_cons_of_mem _ hy), fun y hy q hq => ?_, hnodup⟩
  · by_cases hqp : q = p
    · subst hqp
      obtain rfl := h.class_unique hp hq
      refine ⟨?_, ?_, ?_, ?_⟩
      · simp only [update_self]
        exact hok.chain.push (object_ne_zero hobj) ha
      · simpa using hnd
      · simpa using hsub
      · simp only [update_self, length_cons]
        omega
    · rw [update_of_ne hqp]
      refine (h.slab c' q hq).congr (update_of_ne hqp _ _) fun x hx =>
        update_of_ne ?_ _ _
      rintro rfl
      exact hqp ((h.page_eq_of_mem (mem_pages.2 ⟨c', hq⟩) hx).symm.trans hpage)
  · have hyq := h.notMem y (mem_cons_of_mem _ hy) q hq
    by_cases hqp : q = p
    · subst hqp
      rw [update_self, mem_cons, not_or]
      refine ⟨?_, hyq⟩
      rintro rfl
      exact hmap (mem_map.2 ⟨y, hy, rfl⟩)
    · rwa [update_of_ne hqp]

/-- An address of no page of the class is refused. -/
theorem free_of_notMem (hp : alignDown a pageSize4K ∉ (s.classes c).slabs) :
    s.free m a size = some (.error .invalidAddress, m) := by
  rw [SlabAllocator.free, hc]
  dsimp only
  rw [SlabClass.free, if_neg hp]

end

/-- The pages with one more in one of the classes. -/
theorem pages_perm (hc : (s'.classes c).slabs = (s.classes c).slabs ++ [page])
    (hne : ∀ c', c' ≠ c → (s'.classes c').slabs = (s.classes c').slabs) :
    s'.pages.Perm (page :: s.pages) := by
  have hperm := perm_cons_erase (mem_finRange c)
  have hrest := flatMap_congr fun c' hc' => hne c' fun h =>
      (nodup_finRange numClasses).not_mem_erase (h ▸ hc')
  refine (hperm.flatMap_right _).trans (.trans ?_ ((hperm.flatMap_right _).symm.cons page))
  rw [flatMap_cons, hrest, hc, append_assoc]
  exact perm_middle

/-- A page that is added: its objects are free. -/
theorem SlabInv.format (h : SlabInv objs L s m) (hp : page % pageSize4K = 0)
    (hpage : page ∉ s.pages) (hobj : ∀ c, (s'.classes c).objSize = (s.classes c).objSize)
    (hperm : s'.pages.Perm (page :: s.pages))
    (hslabs : ∀ c' q, q ∈ (s'.classes c').slabs ↔ q ∈ (s.classes c').slabs ∨ (c' = c ∧ q = page)) :
    SlabInv objs (update L page (objects page c)) s' (m.format page (sizeClasses c)) := by
  have hmem (q : ℕ) : q ∈ s'.pages ↔ q = page ∨ q ∈ s.pages := by
    rw [hperm.mem_iff, mem_cons]
  have hne {q : ℕ} (hq : q ∈ s.pages) : q ≠ page := fun h => hpage (h ▸ hq)
  refine ⟨fun c' => (hobj c').trans (h.objSize c'),
    hperm.nodup_iff.2 (nodup_cons.2 ⟨hpage, h.nodup⟩), fun q hq => ?_,
    fun c' q hq => ?_, fun y hy => ?_, fun y hy q hq => ?_, h.objs_nodup⟩
  · rcases (hmem q).1 hq with rfl | hq
    · exact hp
    · exact h.aligned q hq
  · rcases (hslabs c' q).1 hq with hq | ⟨rfl, rfl⟩
    · -- The lists of the other pages are not touched.
      have hq' := mem_pages.2 ⟨c', hq⟩
      rw [update_of_ne (hne hq')]
      refine (h.slab c' q hq).congr (update_of_ne (hne hq') _ _) fun x hx =>
        thread_of_notMem fun hx' => ?_
      have h1 := h.page_eq_of_mem hq' hx
      rw [alignDown_object hx' hp] at h1
      exact hne hq' h1.symm
    · have h0 : 0 ∉ objects q c' := fun h0 => object_ne_zero h0 rfl
      refine ⟨?_, ?_, ?_, ?_⟩
      · simpa [Memory.format] using chain_thread nodup_objects h0
      · simpa using nodup_objects
      · simp
      · simp [Memory.format, length_objects]
  · obtain ⟨q, hq, hy⟩ := h.mem_slabs y hy
    exact ⟨q, (hslabs _ q).2 (.inl hq), hy⟩
  · rcases (hmem q).1 hq with rfl | hq
    · rw [update_self]
      intro hy'
      obtain ⟨q', hq', hyq'⟩ := h.mem_slabs y hy
      have h1 := h.page_eq hq' hyq'
      rw [alignDown_object hy' hp] at h1
      exact hpage (h1 ▸ mem_pages.2 ⟨_, hq'⟩)
    · rw [update_of_ne (hne hq)]
      exact h.notMem y hy q hq

/-- `addSlabPage` adds a page, unless the class has as many as it can. -/
theorem SlabInv.addSlabPage (h : SlabInv objs L s m) (hp : page % pageSize4K = 0)
    (hpage : page ∉ s.pages) (c : Fin numClasses) :
    (maxSlabsPerClass ≤ (s.classes c).slabs.length ∧ s.addSlabPage m c page = (false, s, m)) ∨
    ((s.classes c).slabs.length < maxSlabsPerClass ∧ ∃ s' m',
      s.addSlabPage m c page = (true, s', m') ∧ s'.pages.Perm (page :: s.pages) ∧
      page ∈ (s'.classes c).slabs ∧
      SlabInv objs (update L page (objects page c)) s' m') := by
  rw [SlabAllocator.addSlabPage, dif_pos c.isLt, SlabClass.initSlab]
  by_cases hlen : (s.classes c).slabs.length < maxSlabsPerClass
  · rw [dif_pos hlen, if_neg (by rw [h.objSize]; exact slabCapacity_ne_zero c), h.objSize]
    refine .inr ⟨hlen, _, _, rfl, ?perm, by simp, h.format hp hpage (fun c' => ?_) ?perm ?_⟩
    case perm => exact pages_perm (c := c) (by simp) fun c' hc' => by simp [hc']
    · by_cases hc' : c' = c
      · simp [hc', h.objSize]
      · simp [hc']
    · intro c' q
      by_cases hc' : c' = c
      · simp [hc']
      · simp [hc']
  · rw [dif_neg hlen]
    exact .inl ⟨not_lt.1 hlen, by simp⟩

end SlabAllocator

end SmallAIOS.Mem
