import UnsoloKey.AssertionBounds
import UnsoloKey.ManagementBounds
import UnsoloKey.PinBounds
import UnsoloKey.PinLockout
import Mathlib.Tactic

/-!
# The bytes of a request

A command is handed a pointer and a length, but its accessors trust the lengths
which the sender declares.  `LooksBelow` is the condition on the bytes of the request
under which everything that was declared and is looked at lies inside it: all heads which
the lookups come to, and all payloads which are then read.  Exactly then the command looks
at no byte behind the request, and then the stale bytes of the buffer cannot matter.
-/

namespace UnsoloKey

open Rd

namespace Rd

variable {α : Type}

theorem reads_eq_of_agree {x : Rd α} {m m' : Mem}
    (hagree : ∀ addr ∈ x.reads m, m addr = m' addr) :
    x.reads m = x.reads m' := by
  induction x with
  | ret a => rfl
  | diverge => rfl
  | read addr next ih =>
      have hhere : m addr = m' addr := hagree addr List.mem_cons_self
      have hrest : (next (m addr)).reads m = (next (m addr)).reads m' :=
        ih (m addr) fun a ha => hagree a (List.mem_cons_of_mem addr ha)
      rw [reads, reads, hrest, hhere]

theorem readsBelow_congr {x : Rd α} {n : ℕ} {m m' : Mem}
    (hagree : ∀ addr < n, m addr = m' addr) :
    x.ReadsBelow n m ↔ x.ReadsBelow n m' := by
  constructor
  · intro h addr haddr
    rw [← reads_eq_of_agree fun a ha => hagree a (h a ha)] at haddr
    exact h addr haddr
  · intro h addr haddr
    rw [← reads_eq_of_agree fun a ha => (hagree a (h a ha)).symm] at haddr
    exact h addr haddr

end Rd

/-- The command looks at no byte behind its request. -/
def StaysInRequest (d : Device) (c : Command) : Prop :=
  (fido2ProcessCbor c.env d c.reqLen c.cid).ReadsBelow c.reqLen c.req

instance (d : Device) (c : Command) : Decidable (StaysInRequest d c) :=
  inferInstanceAs (Decidable (∀ addr ∈ _, addr < _))

/-- The same request in a buffer with other bytes behind it. -/
def SameRequest (c c' : Command) : Prop :=
  c'.reqLen = c.reqLen ∧ c'.cid = c.cid ∧ c'.env = c.env ∧
    ∀ addr < c.reqLen, c.req addr = c'.req addr

/-- The bytes behind the request do not decide whether the command looks at them. -/
theorem staysInRequest_congr {d : Device} {c c' : Command} (h : SameRequest c c') :
    StaysInRequest d c ↔ StaysInRequest d c' := by
  obtain ⟨hlen, hcid, henv, hbytes⟩ := h
  unfold StaysInRequest
  rw [hlen, hcid, henv]
  exact readsBelow_congr hbytes

/-- A command which stays in its request answers, writes and remembers the same
whatever else the buffer holds. -/
theorem StaysInRequest.same {d : Device} {c c' : Command}
    (hstays : StaysInRequest d c) (hsame : SameRequest c c') :
    d.outcome c = d.outcome c' ∧ d.step c = d.step c' := by
  obtain ⟨hlen, hcid, henv, hbytes⟩ := hsame
  have houtcome : d.outcome c = d.outcome c' := by
    unfold Device.outcome
    rw [hlen, hcid, henv]
    exact hstays.run_eq hbytes
  exact ⟨houtcome, by rw [Device.step, Device.step, houtcome]⟩

/-! ## Inside the request -/

/-- Everything which the command comes to by the lengths in its request, heads and payloads,
lies inside the request. -/
def Command.LooksBelow (c : Command) (d : Device) : Prop :=
  c.reqLen ≠ 0 →
    if c.req 0 = 0x01 then c.req.LooksMakeCredential c.env d c.reqLen
    else if c.req 0 = 0x02 then c.req.LooksGetAssertion c.env d c.reqLen
    else if c.req 0 = 0x06 then c.req.LooksClientPin c.env d c.reqLen
    else if c.req 0 = 0x0A then c.req.LooksManagement c.env d c.reqLen
    else True

theorem fido2ProcessCbor_confined {d : Device} {c : Command} (hlen : c.reqLen < 65536) :
    (fido2ProcessCbor c.env d c.reqLen c.cid).Confined c.req c.reqLen (c.LooksBelow d) := by
  unfold fido2ProcessCbor Command.LooksBelow
  refine Confined.ite (fun hzero => ?_) fun hsome => ?_
  · exact confined_pure_of fun h => absurd hzero h
  refine Confined.asked ?_ hsome
  -- the command byte itself is there
  refine Confined.congr ((confined_byte (p := 0)).bind (fun r hr => (Option.some.inj hr).symm)
    fun _ => ?_) (and_iff_right (Nat.pos_of_ne_zero hsome))
  unfold processCommand
  generalize c.req 0 = cmd
  refine Confined.ite (fun h => ?_) fun _ => Confined.ite (fun h => ?_) fun hmake =>
    Confined.ite (fun h => ?_) fun hget => Confined.ite (fun h => ?_) fun _ =>
    Confined.ite (fun h => ?_) fun hpin => Confined.ite (fun h => ?_) fun hmanage => ?_
  · exact confined_pure_of (by simp [h])
  · rw [if_pos h]
    exact makeCredential_confined (d := d.onChannel c.cid) hlen
  · rw [if_neg hmake, if_pos h]
    exact getAssertion_confined (d := d.onChannel c.cid) hlen
  · exact confined_pure_of (by simp [h])
  · rw [if_neg hmake, if_neg hget, if_pos h]
    exact processClientPin_confined (d := d.onChannel c.cid)
  · rw [if_neg hmake, if_neg hget, if_neg hpin, if_pos h]
    exact credentialManagement_confined (d := d.onChannel c.cid)
  · rw [if_neg hmake, if_neg hget, if_neg hpin, if_neg hmanage]
    exact Confined.ite (fun _ => confined_pure) fun _ =>
      Confined.ite (fun _ => confined_pure) fun _ => confined_pure

/-- The condition is one on the request alone: the bytes behind it do not decide it. -/
theorem looksBelow_congr {d : Device} {c c' : Command} (hlen : c.reqLen < 65536)
    (hsame : SameRequest c c') (hends : d.outcome c ≠ none) :
    c.LooksBelow d ↔ c'.LooksBelow d := by
  have hconfined := fido2ProcessCbor_confined (d := d) hlen
  have hconfined' := fido2ProcessCbor_confined (d := d) (c := c') (hsame.1 ▸ hlen)
  constructor
  · intro hbelow
    have hstays : StaysInRequest d c := hconfined.below hbelow
    have hends' : d.outcome c' ≠ none := (hstays.same hsame).1 ▸ hends
    exact hconfined'.needs hends' ((staysInRequest_congr hsame).1 hstays)
  · intro hbelow
    have hstays : StaysInRequest d c' := hconfined'.below hbelow
    exact hconfined.needs hends ((staysInRequest_congr hsame).2 hstays)

end UnsoloKey
