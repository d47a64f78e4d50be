import WinePpc64.Com.OutArgs

namespace WinePpc64.Com.Invoke

open Lib List Option

def arrayCells (rawargs : List Word) (i count : ℕ) : List Word :=
  (List.range count).map (cellAt (rawargs.getD i 0))

def ppvCells (sl : Slot) (rawargs : List Word) : List Word :=
  (outArgs sl rawargs .ppvOut (params sl)).map (rawargs.getD · 0)

def staticCells (sl : Slot) (rawargs : List Word) : List Word :=
  (outArgs sl rawargs .ifaceOutStatic (params sl)).map (rawargs.getD · 0)

def arrCells (sl : Slot) (rawargs : List Word) : List Word :=
  (outArgs sl rawargs .ifaceArrOutStatic (params sl)).flatMap fun i =>
    arrayCells rawargs i (countOf sl rawargs i)

def carrCells (sl : Slot) (rawargs : List Word) (mem : Mem) : List Word :=
  (outArgs sl rawargs .ifaceArrOutCountptr (params sl)).flatMap fun i =>
    arrayCells rawargs i (capOf sl rawargs mem i)

def outCells (sl : Slot) (rawargs : List Word) (mem : Mem) : List Word :=
  ppvCells sl rawargs ++ staticCells sl rawargs ++ arrCells sl rawargs ++ carrCells sl rawargs mem

def CellsApart (cs : List Word) : Prop := ∀ c ∈ cs, ∀ d ∈ cs, c = d ∨ Apart c 8 d 8

def ppvArg (sl : Slot) : Option ℕ := ((params sl).filter fun i => sl.classOf i = .ppvOut).getLast?

def ppvCell (sl : Slot) (rawargs : List Word) : Option Word :=
  ((ppvArg sl).map (rawargs.getD · 0)).filter (· ≠ 0)

def unknownIid (e : Env) (sl : Slot) (rawargs : List Word) (c : Call) (o : Returned) : Bool :=
  match ppvCell sl rawargs with
  | none => false
  | some a => o.mem.read a 8 ≠ 0 && (riidIface e o.mem (c.args.getD (sl.aux + 1) 0)).isNone

def wrappedCells (e : Env) (sl : Slot) (rawargs : List Word) (mem : Mem) (c : Call) (o : Returned) :
    List Word :=
  (if succeeded o.ret then (ppvCell sl rawargs).toList else []) ++
    (if succeeded o.ret && !unknownIid e sl rawargs c o then staticCells sl rawargs else []) ++
    arrCells sl rawargs ++ carrCells sl rawargs mem

variable {e : Env} {sl : Slot} {rawargs : List Word} {mem : Mem} {l : Locals} {p q : Post}

variable {i : ℕ}

theorem ppvArg_mem (h : ppvArg sl = some i) : i ∈ params sl ∧ sl.classOf i = .ppvOut := by
  have hmem := mem_of_getLast? h
  simpa using hmem

variable {o : Returned} {c : Call}

variable {ret v : Word}

theorem wrapPpvCell_wraps {ret' ppv riid : Word} (he : e.nowrap = false) (h0 : ppv ≠ 0)
    (hs : succeeded ret) (h : wrapPpvCell e ret p ppv riid = some (ret', q)) : Wraps [ppv] p q ∧
      succeeded ret' = !(p.mem.read ppv 8 ≠ 0 && (riidIface e p.mem riid).isNone) := by
  unfold wrapPpvCell at h
  by_cases hread : p.mem.read ppv 8 = 0
  · rw [if_pos (Or.inr hread)] at h
    obtain ⟨rfl, rfl⟩ := Prod.mk.inj (Option.some.inj h)
    refine ⟨.keep (Or.inl hread), ?_⟩
    rw [hs, decide_eq_false (not_not.mpr hread)]
    rfl
  rw [if_neg (not_or.mpr ⟨h0, hread⟩)] at h
  rw [decide_eq_true hread]
  split at h
  · rename_i hiid
    obtain ⟨rfl, rfl⟩ := Prod.mk.inj (Option.some.inj h)
    rw [hiid]
    exact ⟨.write .refl (Or.inl rfl), rfl⟩
  · rename_i idx hiid
    obtain ⟨q', hq, heq⟩ := map_eq_some_iff.mp h
    obtain ⟨rfl, rfl⟩ := Prod.mk.inj heq
    rw [hiid]
    exact ⟨wrapCell_wraps he hq, hs⟩

theorem wrapPpv_wraps (he : e.nowrap = false)
    (hb : Booked sl rawargs mem (params sl) l) (hc : c.args = l.args) (hm : o.mem = p.mem)
    (h : wrapPpv e l o.ret p = some (ret, q)) :
    Wraps (if succeeded o.ret then (ppvCell sl rawargs).toList else []) p q ∧
      succeeded ret = (succeeded o.ret && !unknownIid e sl rawargs c o) := by
  have hppv : l.ppv = (ppvArg sl).map (·, sl.aux + 1) := hb.ppv
  rw [wrapPpv, hppv] at h
  cases hi : ppvArg sl with
  | none =>
    rw [hi] at h
    obtain ⟨rfl, rfl⟩ := Prod.mk.inj (Option.some.inj h)
    have hcell : ppvCell sl rawargs = none := by simp [ppvCell, hi]
    rw [unknownIid, hcell]
    exact ⟨by simpa using Wraps.nil, by simp⟩
  | some i =>
    rw [hi] at h
    dsimp only [map_some] at h
    by_cases hs : succeeded o.ret
    swap
    · rw [if_pos (by simp [hs])] at h
      obtain ⟨rfl, rfl⟩ := Prod.mk.inj (Option.some.inj h)
      simpa [hs] using Wraps.nil
    rw [if_neg (by simp [hs]), hb.args i (ppvArg_mem hi).1 (by rw [(ppvArg_mem hi).2]; rfl),
      bind_some] at h
    obtain ⟨riid, hriid, h⟩ := bind_eq_some_iff.mp h
    rw [hs]
    by_cases h0 : rawargs.getD i 0 = 0
    · rw [wrapPpvCell, if_pos (Or.inl h0)] at h
      obtain ⟨rfl, rfl⟩ := Prod.mk.inj (Option.some.inj h)
      have hcell : ppvCell sl rawargs = none := by simpa [ppvCell, hi] using h0
      rw [unknownIid, hcell]
      exact ⟨.nil, hs⟩
    · have hcell : ppvCell sl rawargs = some (rawargs.getD i 0) := by simpa [ppvCell, hi] using h0
      have hget : l.args.getD (sl.aux + 1) 0 = riid := by simp [List.getD, hriid]
      rw [unknownIid, hcell, hm, hc, hget]
      exact wrapPpvCell_wraps he h0 hs h

theorem mem_outArgs {c : ArgClass} {is : List ℕ} :
    i ∈ outArgs sl rawargs c is ↔ i ∈ is ∧ sl.classOf i = c ∧ rawargs.getD i 0 ≠ 0 := by
  rw [outArgs, mem_filter, decide_eq_true_iff]

theorem Booked.getElem? {c : ArgClass} (hb : Booked sl rawargs mem (params sl) l)
    (hc : isOutClass c) (hi : i ∈ outArgs sl rawargs c (params sl)) : l.args[i]? = some (rawargs.getD i 0) := by
  obtain ⟨hmem, hclass, -⟩ := mem_outArgs.mp hi
  exact hb.args i hmem (by rwa [hclass])

variable (he : e.nowrap = false) (hb : Booked sl rawargs mem (params sl) l)
include he hb

theorem wrapStatics_wraps (h : wrapStatics e sl l ret p = some q) :
    Wraps (if succeeded ret then staticCells sl rawargs else []) p q := by
  unfold wrapStatics at h
  split_ifs at h with hs
  · rw [if_pos hs, staticCells, map_eq_flatMap]
    rw [hb.static] at h
    refine foldlM_wraps (fun i hi p q hpq => ?_) h
    have hargs := hb.getElem? rfl hi
    rw [wrapStatic, hargs, bind_some, if_neg (mem_outArgs.mp hi).2.2] at hpq
    exact wrapCell_wraps he hpq
  · cases h
    rw [if_neg hs]
    exact .nil

omit hb in
theorem wrapArray_wraps {count : ℕ}
    (hargs : l.args[i]? = some (rawargs.getD i 0)) (h : wrapArray e sl l p i count = some q) :
    Wraps (arrayCells rawargs i count) p q := by
  rw [wrapArray, hargs] at h
  have hw := foldlM_wraps (fun c _ p q hpq => wrapCell_wraps he hpq) h
  rwa [flatMap_singleton'] at hw

theorem wrapArrs_wraps (h : wrapArrs e sl rawargs l p = some q) : Wraps (arrCells sl rawargs) p q := by
  rw [wrapArrs, hb.arr] at h
  refine foldlM_wraps (fun i hi p q hpq => ?_) h
  obtain ⟨c, hc, hpq⟩ := bind_eq_some_iff.mp hpq
  have hcount : countOf sl rawargs i = (c.setWidth 32).toNat := by simp [countOf, hc]
  rw [hcount]
  exact wrapArray_wraps he (hb.getElem? rfl hi) hpq

omit hb he in
theorem carrCells_eq {rawargs : List Word} {mem : Mem} :
    (((outArgs sl rawargs .ifaceArrOutCountptr (params sl)).map (capEntry sl rawargs mem)).filter
      (·.2 ≠ 0)).flatMap (fun ic => arrayCells rawargs ic.1 ic.2) = carrCells sl rawargs mem := by
  unfold carrCells
  induction outArgs sl rawargs .ifaceArrOutCountptr (params sl) with
  | nil => rfl
  | cons i is ih =>
    rw [flatMap_cons, ← ih]
    by_cases h0 : capOf sl rawargs mem i = 0
    · simp [capEntry, h0, arrayCells]
    · simp [capEntry, h0]

theorem wrapCarrs_wraps (h : wrapCarrs e sl l p = some q) : Wraps (carrCells sl rawargs mem) p q := by
  rw [wrapCarrs, hb.carr] at h
  rw [← carrCells_eq]
  refine foldlM_wraps (fun ic hic p q hpq => ?_) h
  obtain ⟨i, hi, rfl⟩ := mem_map.mp (mem_of_mem_filter hic)
  exact wrapArray_wraps he (hb.getElem? rfl hi) hpq

theorem wrapOuts_wraps {r : Word × Post} (hc : c.args = l.args) (hm : o.mem = p.mem)
    (h : wrapOuts e sl rawargs l o.ret p = some r) : Wraps (wrappedCells e sl rawargs mem c o) p r.2 := by
  obtain ⟨⟨ret, p₁⟩, h₁, h⟩ := bind_eq_some_iff.mp h
  obtain ⟨p₂, h₂, h⟩ := bind_eq_some_iff.mp h
  obtain ⟨p₃, h₃, h⟩ := bind_eq_some_iff.mp h
  obtain ⟨p₄, h₄, h⟩ := bind_eq_some_iff.mp h
  cases h
  obtain ⟨hppv, hret⟩ := wrapPpv_wraps he hb hc hm h₁
  have hstatic := wrapStatics_wraps he hb h₂
  rw [hret] at hstatic
  exact ((hppv.append hstatic).append (wrapArrs_wraps he hb h₃)).append (wrapCarrs_wraps he hb h₄)

omit hb he

theorem ppvCell_subset : (ppvCell sl rawargs).toList ⊆ ppvCells sl rawargs := by
  intro a ha
  rw [mem_toList, ppvCell, filter_eq_some_iff,
    map_eq_some_iff] at ha
  obtain ⟨⟨i, hi, rfl⟩, h0⟩ := ha
  obtain ⟨hmem, hc⟩ := ppvArg_mem hi
  exact mem_map.mpr ⟨i, mem_outArgs.mpr ⟨hmem, hc, by simpa using h0⟩, rfl⟩

theorem wrappedCells_subset : wrappedCells e sl rawargs mem c o ⊆ outCells sl rawargs mem := by
  intro a ha
  simp only [wrappedCells, outCells, mem_append] at ha ⊢
  rcases ha with ((ha | ha) | ha) | ha
  · split at ha
    · exact Or.inl (Or.inl (Or.inl (ppvCell_subset ha)))
    · exact absurd ha not_mem_nil
  · split at ha
    · exact Or.inl (Or.inl (Or.inr ha))
    · exact absurd ha not_mem_nil
  · exact Or.inl (Or.inr ha)
  · exact Or.inr ha

theorem cacheQword_safe {proxy : ComProxy} {rt : Runtime} :
    (cacheQword sl proxy ret rt).Safe v ↔ rt.Safe v := by
  unfold cacheQword
  split
  · refine or_congr Iff.rfl (or_congr ?_ Iff.rfl)
    simp only [Runtime.Live, List.mem_map, exists_exists_and_eq_and]
    refine exists_congr fun p => and_congr Iff.rfl ?_
    split <;> rfl
  · rfl

end WinePpc64.Com.Invoke
