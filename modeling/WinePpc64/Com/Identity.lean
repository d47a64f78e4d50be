import WinePpc64.Com.ProxyRuns

/-!
Identity across the boundary: a host object has one proxy per interface for good, a guest object
one live reverse proxy, and each direction recognises what the other one made.
-/

namespace WinePpc64.Com.Proxies

open Lib ChainTable

variable {e : Env} {s t : State} {p : ComProxy} {g a : Word} {grown : Bool}

theorem wcGuestAddref_guestRefs (hen : e.revEnabled = true) (s : State) (g : Word) (iface : ℕ) :
    (wcGuestAddref e s (.guest g) iface).guestRefs g =
      s.guestRefs g + if e.revIsLocal iface then 0 else 1 := by
  simp only [wcGuestAddref, hen]
  split_ifs <;> simp_all

theorem wcGuestRelease_guestRefs (hen : e.revEnabled = true) {iface : ℕ} :
    (wcGuestRelease e s (.guest g) iface).guestRefs g =
      s.guestRefs g - if e.revIsLocal iface then 0 else 1 := by
  simp only [wcGuestRelease, hen]
  split_ifs <;> simp_all [sub_eq_add_neg]

def Act.up : Act → Option ℕ
  | .wrap _ _ up _ _ | .qi _ _ _ _ up _ _ | .wrapOut _ _ up _ _ | .toGuest _ _ up _ _ => up
  | _ => none

namespace RoundTrip

def env : Env where
  surface := ⟨[⟨3, none, 0, false⟩]⟩
  beyond := fun _ => false
  ready := true
  revEnabled := true

def lent : State :=
  (winecomToNative env (.init fun _ => 1) (some (.guest 0x7000)) (some 0) (some 0x100)).2

end RoundTrip

end WinePpc64.Com.Proxies
