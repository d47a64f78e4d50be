import WinePpc64.Com.WrapSafe

namespace WinePpc64.Com.Invoke

open Lib List Except Locals

def outArgs (sl : Slot) (rawargs : List Word) (c : ArgClass) (is : List ℕ) : List ℕ :=
  is.filter fun i => sl.classOf i = c ∧ rawargs.getD i 0 ≠ 0

def countOf (sl : Slot) (rawargs : List Word) (i : ℕ) : ℕ :=
  ((countArg sl rawargs i).map fun c => (c.setWidth 32).toNat).getD 0

def capOf (sl : Slot) (rawargs : List Word) (mem : Mem) (i : ℕ) : ℕ :=
  ((countArg sl rawargs i).map (capacity mem)).getD 0

def classCount (sl : Slot) (c : ArgClass) (is : List ℕ) : ℕ := is.countP fun i => sl.classOf i = c

structure WithinTables (sl : Slot) : Prop where
  static : classCount sl .ifaceOutStatic (params sl) ≤ 8
  arr : classCount sl .ifaceArrOutStatic (params sl) ≤ 8
  carr : classCount sl .ifaceArrOutCountptr (params sl) ≤ 4

def isOutClass : ArgClass → Bool
  | .ppvOut | .ifaceOutStatic | .ifaceArrOutStatic | .ifaceArrOutCountptr => true
  | _ => false

structure SameOuts (l l' : Locals) : Prop where
  static : l'.outStatic = l.outStatic
  arr : l'.outArr = l.outArr
  carr : l'.outCarr = l.outCarr
  ppv : l'.ppv = l.ppv

variable {e : Env} {sl : Slot} {rawargs : List Word} {mem : Mem} {l l' : Locals} {i n j : ℕ}
  {raw v : Word} {c : ArgClass}

theorem SameOuts.setArg (i : ℕ) (v : Word) : SameOuts l (l.setArg i v) :=
  ⟨rfl, rfl, rfl, rfl⟩

def OnlyArg (l : Locals) (i : ℕ) (l' : Locals) : Prop :=
  (∃ v, l'.args = l.args.set i v) ∧ SameOuts l l'

theorem OnlyArg.noteBorrowed (h : OnlyArg l i l') {host : Word} : OnlyArg l i (l'.noteBorrowed j host) := by
  unfold Locals.noteBorrowed
  split
  · exact ⟨h.1, { h.2 with }⟩
  · exact h

theorem OnlyArg.noteMinted (h : OnlyArg l i l') {native : Word} : OnlyArg l i (l'.noteMinted native) := by
  unfold Locals.noteMinted
  split
  · exact ⟨h.1, { h.2 with }⟩
  · exact h

theorem marshalIfaceIn_onlyArg (h : marshalIfaceIn e sl l i raw = .ok l') : OnlyArg l i l' := by
  unfold marshalIfaceIn at h
  split at h
  · cases h
  rename_i host rt _
  cases h
  have hset : OnlyArg l i { l.setArg i host with rt := rt } := ⟨⟨host, rfl⟩, rfl, rfl, rfl, rfl⟩
  exact hset.noteBorrowed

theorem marshalEvent_onlyArg {oneshot : Bool} (h : marshalEvent e l i raw oneshot = .ok l') :
    OnlyArg l i l' := by
  unfold marshalEvent at h
  split at h
  · obtain rfl := ok.inj h
    exact ⟨⟨_, rfl⟩, .setArg i 0⟩
  split at h
  · cases h
  split at h
  · cases h
  · obtain rfl := ok.inj h
    exact OnlyArg.noteMinted ⟨⟨_, rfl⟩, .setArg ..⟩

theorem marshalArrIn_onlyArg (h : marshalArrIn e sl rawargs mem l i raw = .ok l') : OnlyArg l i l' := by
  unfold marshalArrIn at h
  split at h
  · cases h
  dsimp only at h
  split at h
  · obtain rfl := ok.inj h
    exact ⟨⟨_, rfl⟩, .setArg i raw⟩
  split at h
  · cases h
  split at h
  · cases h
  · obtain rfl := ok.inj h
    exact ⟨⟨_, rfl⟩, ⟨rfl, rfl, rfl, rfl⟩⟩

def capEntry (sl : Slot) (rawargs : List Word) (mem : Mem) (i : ℕ) : ℕ × ℕ :=
  (i, capOf sl rawargs mem i)

structure Noted (sl : Slot) (rawargs : List Word) (mem : Mem) (l : Locals) (i : ℕ) (l' : Locals) :
    Prop where
  lt : i < l.args.length
  args : ∃ v, l'.args = l.args.set i v ∧ (isOutClass (sl.classOf i) → v = rawargs.getD i 0)
  static : (sl.classOf i = .ifaceOutStatic → l.outStatic.length < 8) →
    l'.outStatic = l.outStatic ++ outArgs sl rawargs .ifaceOutStatic [i]
  arr : (sl.classOf i = .ifaceArrOutStatic → l.outArr.length < 8) →
    l'.outArr = l.outArr ++ outArgs sl rawargs .ifaceArrOutStatic [i]
  carr : (sl.classOf i = .ifaceArrOutCountptr → l.outCarr.length < 4) → l'.outCarr = l.outCarr ++
    ((outArgs sl rawargs .ifaceArrOutCountptr [i]).map (capEntry sl rawargs mem)).filter (·.2 ≠ 0)
  ppv : l'.ppv = if sl.classOf i = .ppvOut then some (i, sl.aux + 1) else l.ppv

theorem outArgs_singleton {rawargs : List Word} :
    outArgs sl rawargs c [i] =
      if sl.classOf i = c ∧ rawargs.getD i 0 ≠ 0 then [i] else [] := by
  simp [outArgs, filter_cons]

variable (hi : i < l.args.length) {rt : Runtime} {is js : List ℕ}
include hi

theorem Noted.of_onlyArg (hc : isOutClass (sl.classOf i) = false)
    (h : OnlyArg l i l') : Noted sl rawargs mem l i l' := by
  obtain ⟨⟨v, hv⟩, houts⟩ := h
  have hne : ∀ c, isOutClass c = true → sl.classOf i ≠ c := by
    rintro c hc' rfl
    rw [hc] at hc'
    exact Bool.false_ne_true hc'
  refine ⟨hi, ⟨v, hv, by simp [hc]⟩, fun _ => ?_, fun _ => ?_, fun _ => ?_, ?_⟩
  · simp [outArgs_singleton, hne .ifaceOutStatic rfl, houts.static]
  · simp [outArgs_singleton, hne .ifaceArrOutStatic rfl, houts.arr]
  · simp [outArgs_singleton, hne .ifaceArrOutCountptr rfl, houts.carr]
  · simp [hne .ppvOut rfl, houts.ppv]

theorem noteStatic_noted (hc : sl.classOf i = .ifaceOutStatic)
    (hget : rawargs.getD i 0 = raw) : Noted sl rawargs mem l i ((l.setArg i raw).noteStatic i raw) := by
  have hargs : ((l.setArg i raw).noteStatic i raw).args = l.args.set i raw := by
    unfold noteStatic
    split <;> rfl
  refine ⟨hi, ⟨raw, hargs, fun _ => hget.symm⟩, fun hlen => ?_, fun _ => ?_, fun _ => ?_, ?_⟩
  · rw [noteStatic, outArgs_singleton, hget]
    by_cases h0 : raw = 0
    · rw [if_neg fun h => h.1 h0, if_neg fun h => h.2 h0, append_nil]
      rfl
    · rw [if_pos ⟨h0, hlen hc⟩, if_pos ⟨hc, h0⟩]
      rfl
  all_goals
    unfold noteStatic
    split <;> simp [outArgs_singleton, hc, setArg]

theorem noteArr_noted (hc : sl.classOf i = .ifaceArrOutStatic)
    (hget : rawargs.getD i 0 = raw) : Noted sl rawargs mem l i ((l.setArg i raw).noteArr i raw) := by
  have hargs : ((l.setArg i raw).noteArr i raw).args = l.args.set i raw := by
    unfold noteArr
    split <;> rfl
  refine ⟨hi, ⟨raw, hargs, fun _ => hget.symm⟩, fun _ => ?_, fun hlen => ?_, fun _ => ?_, ?_⟩
  case refine_2 =>
    rw [noteArr, outArgs_singleton, hget]
    by_cases h0 : raw = 0
    · rw [if_neg fun h => h.1 h0, if_neg fun h => h.2 h0, append_nil]
      rfl
    · rw [if_pos ⟨h0, hlen hc⟩, if_pos ⟨hc, h0⟩]
      rfl
  all_goals
    unfold noteArr
    split <;> simp [outArgs_singleton, hc, setArg]

theorem marshalCountptr_noted (hc : sl.classOf i = .ifaceArrOutCountptr)
    (hget : rawargs.getD i 0 = raw) (h : marshalCountptr sl rawargs mem l i raw = .ok l') :
    Noted sl rawargs mem l i l' := by
  unfold marshalCountptr at h
  split_ifs at h with hraw
  · split at h
    · cases h
    rename_i cp hcp
    cases h
    have hcap : capOf sl rawargs mem i = capacity mem cp := by simp [capOf, hcp]
    have hargs : ((l.setArg i raw).noteCarr i (capacity mem cp)).args = l.args.set i raw := by
      unfold noteCarr
      split <;> rfl
    refine ⟨hi, ⟨raw, hargs, fun _ => hget.symm⟩, fun _ => ?_, fun _ => ?_, fun _ => ?_, ?_⟩
    case refine_3 =>
      rw [outArgs_singleton, hget, if_pos ⟨hc, hraw.1⟩, noteCarr]
      split_ifs with h0
      · simp [capEntry, hcap, h0, setArg]
      · simp [capEntry, hcap, not_not.mp h0, setArg]
    all_goals
      unfold noteCarr
      split <;> simp [outArgs_singleton, hc, setArg]
  · obtain rfl := ok.inj h
    refine ⟨hi, ⟨raw, rfl, fun _ => hget.symm⟩, fun _ => ?_, fun _ => ?_, fun hlen => ?_, ?_⟩
    case refine_3 =>
      rw [outArgs_singleton, hget, if_neg fun h => hraw ⟨h.2, hlen hc⟩]
      simp [setArg]
    all_goals simp [outArgs_singleton, hc, setArg]

theorem ppv_noted (hc : sl.classOf i = .ppvOut) (hget : rawargs.getD i 0 = raw) :
    Noted sl rawargs mem l i { l.setArg i raw with ppv := some (i, sl.aux + 1) } := by
  refine ⟨hi, ⟨raw, rfl, fun _ => hget.symm⟩, fun _ => ?_, fun _ => ?_, fun _ => ?_, ?_⟩ <;>
    simp [outArgs_singleton, hc, setArg]

omit hi

theorem marshalArg_noted (h : marshalArg e sl rawargs mem l i = .ok l') : Noted sl rawargs mem l i l' := by
  unfold marshalArg at h
  split at h
  · cases h
  rename_i raw hraw
  have hget : rawargs.getD i 0 = raw := by simp [List.getD, hraw]
  split at h
  · cases h
  have hi : i < l.args.length := by omega
  split at h
  case h_1 hc | h_2 hc | h_3 hc =>
    cases h
    exact .of_onlyArg hi (by rw [hc]; rfl) ⟨⟨_, rfl⟩, .setArg ..⟩
  case h_4 hc => exact .of_onlyArg hi (by rw [hc]; rfl) (marshalIfaceIn_onlyArg h)
  case h_5 hc =>
    cases h
    exact noteStatic_noted hi hc hget
  case h_6 hc =>
    split at h
    · cases h
    · obtain rfl := ok.inj h
      exact noteArr_noted hi hc hget
  case h_7 hc =>
    split at h
    · cases h
    · exact marshalCountptr_noted hi hc hget h
  case h_8 hc =>
    cases h
    exact ppv_noted hi hc hget
  case h_9 hc | h_10 hc => exact .of_onlyArg hi (by rw [hc]; rfl) (marshalEvent_onlyArg h)
  case h_11 hc => exact .of_onlyArg hi (by rw [hc]; rfl) (marshalArrIn_onlyArg h)
  case h_12 => cases h

structure Booked (sl : Slot) (rawargs : List Word) (mem : Mem) (is : List ℕ) (l : Locals) :
    Prop where
  args : ∀ i ∈ is, isOutClass (sl.classOf i) → l.args[i]? = some (rawargs.getD i 0)
  static : l.outStatic = outArgs sl rawargs .ifaceOutStatic is
  arr : l.outArr = outArgs sl rawargs .ifaceArrOutStatic is
  carr : l.outCarr =
    ((outArgs sl rawargs .ifaceArrOutCountptr is).map (capEntry sl rawargs mem)).filter (·.2 ≠ 0)
  ppv : l.ppv = ((is.filter fun i => sl.classOf i = .ppvOut).getLast?).map (·, sl.aux + 1)

theorem Booked.init {proxy : ComProxy} : Booked sl rawargs mem [] (Locals.init proxy rt) :=
  ⟨fun _ h => absurd h not_mem_nil, rfl, rfl, rfl, rfl⟩

theorem outArgs_append :
    outArgs sl rawargs c (is ++ js) = outArgs sl rawargs c is ++ outArgs sl rawargs c js :=
  filter_append ..

theorem length_outArgs_le : (outArgs sl rawargs c is).length ≤ classCount sl c is := by
  rw [outArgs, ← countP_eq_length_filter]
  exact countP_mono_left fun i _ h => by simp_all

theorem length_outArgs_lt (hn : classCount sl c (is ++ i :: js) ≤ n) (hc : sl.classOf i = c) :
    (outArgs sl rawargs c is).length < n := by
  have hle : (outArgs sl rawargs c is).length ≤ classCount sl c is := length_outArgs_le
  have hcount : classCount sl c (is ++ i :: js) = classCount sl c is + (classCount sl c js + 1) := by
    simp [classCount, hc]
  omega

theorem getElem?_set_of_out {args : List Word} (hi : i < args.length)
    (hv : isOutClass (sl.classOf i) → v = rawargs.getD i 0) (hj : isOutClass (sl.classOf j))
    (h : j ≠ i → args[j]? = some (rawargs.getD j 0)) :
    (args.set i v)[j]? = some (rawargs.getD j 0) := by
  by_cases hji : j = i
  · subst hji
    rw [getElem?_set_self hi, hv hj]
  · rw [getElem?_set_ne (Ne.symm hji), h hji]

variable (hw : WithinTables sl)
include hw

theorem Booked.step (hall : params sl = is ++ i :: js)
    (h : Booked sl rawargs mem is l) (hn : Noted sl rawargs mem l i l') :
    Booked sl rawargs mem (is ++ [i]) l' := by
  have hstatic := hw.static
  have harr := hw.arr
  have hcarr := hw.carr
  rw [hall] at hstatic harr hcarr
  refine ⟨fun j hj hout => ?_, ?_, ?_, ?_, ?_⟩
  · obtain ⟨v, hargs, hv⟩ := hn.args
    rw [hargs]
    refine getElem?_set_of_out hn.lt hv hout fun hji => h.args j ?_ hout
    exact (mem_append.mp hj).resolve_right (by simpa using hji)
  · rw [hn.static (h.static ▸ length_outArgs_lt hstatic), h.static, outArgs_append]
  · rw [hn.arr (h.arr ▸ length_outArgs_lt harr), h.arr, outArgs_append]
  · have hroom : sl.classOf i = .ifaceArrOutCountptr → l.outCarr.length < 4 := by
      intro hc
      rw [h.carr]
      calc _ ≤ _ := length_filter_le _ _
        _ = (outArgs sl rawargs .ifaceArrOutCountptr is).length := length_map _
        _ < 4 := length_outArgs_lt hcarr hc
    rw [hn.carr hroom, h.carr, outArgs_append, map_append, filter_append]
  · rw [hn.ppv, h.ppv, filter_append]
    split_ifs with hc <;> simp [hc]

theorem foldlM_booked (hall : params sl = is ++ js)
    (h : Booked sl rawargs mem is l) (hl : js.foldlM (marshalArg e sl rawargs mem) l = .ok l') :
    Booked sl rawargs mem (params sl) l' := by
  induction js generalizing is l with
  | nil =>
    cases hl
    rwa [hall, append_nil]
  | cons i js ih =>
    rw [foldlM_cons] at hl
    cases hstep : marshalArg e sl rawargs mem l i with
    | error x =>
      rw [hstep] at hl
      cases hl
    | ok m =>
      rw [hstep] at hl
      exact ih (by simp [hall]) (h.step hw hall (marshalArg_noted hstep)) hl

theorem marshalArgs_booked {proxy : ComProxy}
    (h : marshalArgs e sl proxy rawargs mem rt = .ok l) : Booked sl rawargs mem (params sl) l :=
  foldlM_booked hw (nil_append _).symm .init h

end WinePpc64.Com.Invoke
