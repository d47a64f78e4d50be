import WinePpc64.Com.Invoke

namespace WinePpc64.Com.Invoke

open Lib List

def Runtime.Live (rt : Runtime) (v : Word) : Prop := ∃ p ∈ rt.intern, p.addr = v ∧ 0 < p.refs

def Runtime.Safe (rt : Runtime) (v : Word) : Prop := v = 0 ∨ rt.Live v ∨ v ∈ rt.recovered

instance (rt : Runtime) (v : Word) : Decidable (rt.Safe v) := by
  unfold Runtime.Safe Runtime.Live
  infer_instance

structure Grows (rt rt' : Runtime) : Prop where
  live : ∀ v, rt.Live v → rt'.Live v
  recovered : ∀ v ∈ rt.recovered, v ∈ rt'.recovered

variable {e : Env} {rt rt' rt'' : Runtime} {v host c : Word} {iface : ℕ}

namespace Grows

theorem refl : Grows rt rt := ⟨fun _ h => h, fun _ h => h⟩

theorem trans (h : Grows rt rt') (h' : Grows rt' rt'') : Grows rt rt'' :=
  ⟨fun v hv => h'.live v (h.live v hv), fun v hv => h'.recovered v (h.recovered v hv)⟩

theorem safe (h : Grows rt rt') (hv : rt.Safe v) : rt'.Safe v := by
  rcases hv with h0 | hlive | hrec
  · exact Or.inl h0
  · exact Or.inr (Or.inl (h.live v hlive))
  · exact Or.inr (Or.inr (h.recovered v hrec))

theorem of_eq (hi : rt'.intern = rt.intern) (hr : rt'.recovered = rt.recovered) : Grows rt rt' := by
  refine ⟨fun v hv => ?_, fun v hv => hr ▸ hv⟩
  obtain ⟨p, hp, hv⟩ := hv
  exact ⟨p, hi ▸ hp, hv⟩

end Grows

@[simp] theorem revRelease_intern (e : Env) (rt : Runtime) (p : RevProxy) :
    (revRelease e rt p).intern = rt.intern := by
  unfold revRelease
  split <;> rfl

@[simp] theorem revRelease_recovered (e : Env) (rt : Runtime) (p : RevProxy) :
    (revRelease e rt p).recovered = rt.recovered := by
  unfold revRelease
  split <;> rfl

@[simp] theorem wcReverseRelease_intern (e : Env) (rt : Runtime) (ptr : Word) :
    (wcReverseRelease e rt ptr).intern = rt.intern := by
  unfold wcReverseRelease
  split <;> simp

@[simp] theorem wcReverseRelease_recovered (e : Env) (rt : Runtime) (ptr : Word) :
    (wcReverseRelease e rt ptr).recovered = rt.recovered := by
  unfold wcReverseRelease
  split <;> simp

theorem internAddRef_live {ps qs : List ComProxy} {addr : Word}
    (h : internAddRef host iface ps = some (addr, qs)) :
    (∃ q ∈ qs, q.addr = addr ∧ 0 < q.refs) ∧
      ∀ p ∈ ps, 0 < p.refs → ∃ q ∈ qs, q.addr = p.addr ∧ 0 < q.refs := by
  induction ps generalizing qs with
  | nil => simp [internAddRef] at h
  | cons p ps ih =>
    rw [internAddRef] at h
    split at h
    · obtain ⟨rfl, rfl⟩ := Prod.mk.inj (Option.some.inj h)
      refine ⟨⟨p.addRef, mem_cons_self, rfl, Nat.succ_pos _⟩, fun q hq hpos => ?_⟩
      rcases mem_cons.mp hq with rfl | hq
      · exact ⟨q.addRef, mem_cons_self, rfl, Nat.succ_pos _⟩
      · exact ⟨q, mem_cons_of_mem _ hq, rfl, hpos⟩
    · obtain ⟨r, hr, heq⟩ := Option.map_eq_some_iff.mp h
      obtain ⟨rfl, rfl⟩ := Prod.mk.inj heq
      obtain ⟨⟨q, hq, hlive⟩, hall⟩ := ih hr
      refine ⟨⟨q, mem_cons_of_mem _ hq, hlive⟩, fun x hx hpos => ?_⟩
      rcases mem_cons.mp hx with rfl | hx
      · exact ⟨x, mem_cons_self, rfl, hpos⟩
      · obtain ⟨y, hy, hlive⟩ := hall x hx hpos
        exact ⟨y, mem_cons_of_mem _ hy, hlive⟩

theorem Grows.allocate : Grows rt rt.allocate.2 := .of_eq rfl rfl

theorem Grows.addProxy (addr host : Word) (iface : ℕ) : Grows rt (rt.addProxy addr host iface) := by
  refine ⟨fun v hv => ?_, fun v hv => hv⟩
  obtain ⟨q, hq, hlive⟩ := hv
  exact ⟨q, mem_cons_of_mem _ hq, hlive⟩

theorem addProxy_live (addr host : Word) (iface : ℕ) : (rt.addProxy addr host iface).Live addr :=
  ⟨⟨addr, host, iface, 1, 0⟩, mem_cons_self, rfl, Nat.one_pos⟩

variable (rt host iface) in
theorem winecomWrap_spec (he : e.nowrap = false) :
    (winecomWrap e rt host iface).2.Safe (winecomWrap e rt host iface).1 ∧
      Grows rt (winecomWrap e rt host iface).2 := by
  unfold winecomWrap
  by_cases h0 : host = 0
  · rw [if_pos h0]
    exact ⟨Or.inl rfl, .refl⟩
  rw [if_neg h0]
  split
  · -- the reverse proxy is released, its guest object handed back
    refine ⟨Or.inr (Or.inr (by simp)), fun v hv => ?_, fun v hv => by simp [hv]⟩
    simpa [Runtime.Live] using hv
  rw [if_neg (by simp [he])]
  split
  · rename_i addr ps hps
    obtain ⟨hself, hall⟩ := internAddRef_live hps
    refine ⟨Or.inr (Or.inl hself), fun v hv => ?_, fun v hv => hv⟩
    obtain ⟨p, hp, rfl, hpos⟩ := hv
    exact hall p hp hpos
  · dsimp only
    by_cases haddr : rt.allocate.1 = 0
    · rw [if_pos haddr]
      exact ⟨Or.inl rfl, .allocate⟩
    · rw [if_neg haddr]
      exact ⟨Or.inr (Or.inl (addProxy_live ..)), Grows.allocate.trans (.addProxy ..)⟩

structure Wraps (cs : List Word) (p q : Post) : Prop where
  grows : Grows p.rt q.rt
  frame : ∀ a, (∀ c ∈ cs, Apart a 8 c 8) → q.mem.read a 8 = p.mem.read a 8
  clean : ∀ a, (∀ c ∈ cs, a = c ∨ Apart a 8 c 8) → a ∈ cs ∨ p.rt.Safe (p.mem.read a 8) →
    q.rt.Safe (q.mem.read a 8)

namespace Wraps

variable {cs ds : List Word} {p q r : Post}

theorem nil : Wraps [] p p := by
  refine ⟨.refl, fun _ _ => rfl, fun a _ h => ?_⟩
  rcases h with h | h
  · exact absurd h not_mem_nil
  · exact h

theorem append (h : Wraps cs p q) (h' : Wraps ds q r) : Wraps (cs ++ ds) p r := by
  refine ⟨h.grows.trans h'.grows, fun a ha => ?_, fun a ha hsafe => ?_⟩
  · rw [h'.frame a fun c hc => ha c (mem_append_right _ hc),
      h.frame a fun c hc => ha c (mem_append_left _ hc)]
  apply h'.clean a fun c hc => ha c (mem_append_right _ hc)
  have hcs : a ∈ cs ∨ p.rt.Safe (p.mem.read a 8) → q.rt.Safe (q.mem.read a 8) :=
    h.clean a fun c hc => ha c (mem_append_left _ hc)
  rcases hsafe with hmem | hsafe
  · rcases mem_append.mp hmem with hmem | hmem
    · exact Or.inr (hcs (Or.inl hmem))
    · exact Or.inl hmem
  · exact Or.inr (hcs (Or.inr hsafe))

theorem write (hg : Grows p.rt rt) (hv : rt.Safe v) : Wraps [c] p ⟨p.mem.write c 8 v, rt⟩ := by
  refine ⟨hg, fun a ha => ?_, fun a ha hsafe => ?_⟩
  · exact Mem.read_write_apart (ha c mem_cons_self)
  by_cases hac : a = c
  · subst hac
    have hread : (p.mem.write a 8 v).read a 8 = v :=
      Mem.read_write_same (by norm_num)
    exact hread.symm ▸ hv
  · have hap := (ha c mem_cons_self).resolve_left hac
    have hread : (p.mem.write c 8 v).read a 8 = p.mem.read a 8 :=
      Mem.read_write_apart hap
    exact hread.symm ▸ hg.safe (hsafe.resolve_left (by simpa using hac))

theorem keep (h : p.rt.Safe (p.mem.read c 8)) : Wraps [c] p p := by
  refine ⟨.refl, fun _ _ => rfl, fun a _ hsafe => ?_⟩
  rcases hsafe with hmem | hsafe
  · exact mem_singleton.mp hmem ▸ h
  · exact hsafe

end Wraps

theorem wrapCell_wraps {iface : Option ℕ} {p q : Post} (he : e.nowrap = false)
    (h : wrapCell e iface p c = some q) : Wraps [c] p q := by
  unfold wrapCell at h
  split_ifs at h with h0
  · cases h
    exact .keep (Or.inl h0)
  · obtain ⟨k, -, rfl⟩ := Option.map_eq_some_iff.mp h
    obtain ⟨hsafe, hgrows⟩ := winecomWrap_spec p.rt (p.mem.read c 8) k he
    exact .write hgrows hsafe

theorem foldlM_wraps {α : Type} {f : Post → α → Option Post} {cells : α → List Word} {xs : List α}
    (hf : ∀ x ∈ xs, ∀ p q, f p x = some q → Wraps (cells x) p q) {p q : Post}
    (h : xs.foldlM f p = some q) : Wraps (xs.flatMap cells) p q := by
  induction xs generalizing p with
  | nil =>
    cases h
    exact .nil
  | cons x xs ih =>
    obtain ⟨r, hr, hq⟩ := Option.bind_eq_some_iff.mp h
    exact (hf x mem_cons_self p r hr).append
      (ih (fun y hy => hf y (mem_cons_of_mem _ hy)) hq)

end WinePpc64.Com.Invoke
