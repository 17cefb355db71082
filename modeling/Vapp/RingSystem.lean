import Vapp.UsedWalk
import Vapp.DescChain
import Vapp.Library.Transition

/-! # Two parties on one ring

The producer puts packets and reclaims used descriptors; the consumer runs
`process_avail_vring`, whose loop is taken apart so that the calls of the producer may
fall between any two of its turns.  The two share the ring and the packet buffers in one
shared memory object, each through its own address space and its own `VringTable`.  On
the TX ring the client produces and the server consumes; on the RX ring it is the other
way round.
-/
namespace Vapp

open Counter16

variable {κ μ : Type}

/-- Where the two parties find the ring: the address spaces, the shared object with the
ring at its beginning, the offset of the first packet buffer, and the address that the
descriptors give for each buffer. -/
structure RingEnv where
  prodSpace : AddrSpace
  consSpace : AddrSpace
  vIdx : RingIdx
  shm : Nat
  bufOff : Nat
  addr : Nat → UInt64

namespace RingEnv
variable (E : RingEnv)

def descLoc : Loc := ⟨E.shm, offsetofDesc⟩
def availLoc : Loc := ⟨E.shm, offsetofAvail⟩
def usedLoc : Loc := ⟨E.shm, offsetofUsed⟩

/-- The first byte of packet buffer `d`. -/
def buffer (d : Nat) : Loc := ⟨E.shm, E.bufOff + bufferSize * d⟩

end RingEnv

/-- The tables of both parties, the shared memory and the slot a `process_avail_vring`
call under way is at.  The last four components are history: the packets put so far, what
was handed to `avail_handler` for each entry consumed so far, how many consumed entries
the last finished call has published, and how many were published at the last call of
`process_used_vring`. -/
structure RingState (κ μ : Type) where
  prod : VringTable κ
  cons : VringTable μ
  mem : Mem
  cursor : Option UInt16
  sent : List (List UInt8)
  outcomes : List (Option HandlerCall)
  published : Nat
  seen : Nat

/-- The calls of the producer, and the parts of a `process_avail_vring` call. -/
inductive RingLabel where
  | put (buf : List UInt8)
  | reclaim
  | enter
  | serve
  | leave
  deriving DecidableEq, Repr

/-- One step of either party.  Every step is a call, or a part of one, that returned. -/
inductive RingStep (E : RingEnv) : RingState κ μ → RingLabel → RingState κ μ → Prop
  | put {s : RingState κ μ} {buf : List UInt8} {r : Int} {t : VringTable κ} {m : Mem}
      (h : putVring E.prodSpace s.prod E.vIdx buf s.mem = .ret (r, t, m)) :
      RingStep E s (.put buf)
        { s with prod := t, mem := m, sent := if r = 0 then s.sent ++ [buf] else s.sent }
  | reclaim {s : RingState κ μ} {fuel : Nat} {u : UsedLoop κ}
      (h : processUsedVring E.prodSpace fuel s.prod E.vIdx s.mem = .ret u) :
      RingStep E s .reclaim { s with prod := u.table, mem := u.mem, seen := s.published }
  | enter {s : RingState κ μ} {a : UInt16} (hidle : s.cursor = none)
      (h : availEnter s.cons E.vIdx = .ret a) : RingStep E s .enter { s with cursor := some a }
  | serve {s : RingState κ μ} {a : UInt16} {fuel : Nat} {r : AvailTurn μ}
      (hcur : s.cursor = some a)
      (h : availTurn E.consSpace fuel s.cons E.vIdx a s.mem = .ret (some r)) :
      RingStep E s .serve
        { s with
          cons := r.table
          mem := r.mem
          cursor := some r.aIdx
          outcomes := s.outcomes ++ [r.call] }
  | leave {s : RingState κ μ} {a : UInt16} {fuel : Nat} {m : Mem} (hcur : s.cursor = some a)
      (h : availTurn E.consSpace fuel s.cons E.vIdx a s.mem = .ret none)
      (hidx : availLeave E.consSpace s.cons E.vIdx s.mem = .ret m) :
      RingStep E s .leave { s with mem := m, cursor := none, published := s.outcomes.length }

namespace RingState
variable (E : RingEnv) (s : RingState κ μ)

/-- The head of the producer's free list. -/
def head : UInt16 := (s.prod.vring E.vIdx).lastAvailIdx

/-- The links between the descriptors. -/
def next : UInt16 → UInt16 := s.mem.next E.descLoc

end RingState

/-! ### What never changes -/

/-- Both parties reach the ring and every packet buffer, the ring has the size of its
arrays, and the consumer's handler accepts whatever fits the local buffer. -/
structure Wired (E : RingEnv) (s : RingState κ μ) : Prop where
  prodDesc : E.prodSpace.resolve (s.prod.vring E.vIdx).desc = some E.descLoc
  prodAvail : E.prodSpace.resolve (s.prod.vring E.vIdx).avail = some E.availLoc
  prodUsed : E.prodSpace.resolve (s.prod.vring E.vIdx).used = some E.usedLoc
  prodNum : (s.prod.vring E.vIdx).num.toNat = vhostVringSize
  consDesc : E.consSpace.resolve (s.cons.vring E.vIdx).desc = some E.descLoc
  consAvail : E.consSpace.resolve (s.cons.vring E.vIdx).avail = some E.availLoc
  consUsed : E.consSpace.resolve (s.cons.vring E.vIdx).used = some E.usedLoc
  consNum : (s.cons.vring E.vIdx).num.toNat = vhostVringSize
  addr : ∀ d, d < vhostVringSize → (s.mem.desc E.descLoc d).addr = E.addr d
  prodBuf : ∀ d, d < vhostVringSize →
    Shows E.prodSpace (s.prod.translate (E.addr d)) (virtioNetHdrSize + bufferSize) (E.buffer d)
  consBuf : ∀ d, d < vhostVringSize →
    Shows E.consSpace (s.cons.translate (E.addr d)) bufferSize (E.buffer d)
  handler : ∃ h, s.cons.handlers.availHandler = some h ∧
    ∀ call : HandlerCall, call.size.toNat ≤ ethPacketSize → h.accepts call

variable {E : RingEnv} {s t : RingState κ μ} {l : RingLabel}

theorem num_ne_zero {v : Vring} (h : v.num.toNat = vhostVringSize) : v.num ≠ 0 := by
  intro hz
  rw [hz] at h
  exact absurd h (by decide)

/-- A producer that only moves the two indices of its ring and keeps the addresses of the
descriptors stays wired. -/
theorem Wired.moveProd (h : Wired E s) {head idx : UInt16} {m : Mem}
    (haddr : ∀ d, (m.desc E.descLoc d).addr = (s.mem.desc E.descLoc d).addr)
    (sent : List (List UInt8)) (seen : Nat) :
    Wired E
      { s with
        prod := s.prod.setVring E.vIdx
          { s.prod.vring E.vIdx with lastAvailIdx := head, lastUsedIdx := idx }
        mem := m
        sent := sent
        seen := seen } where
  prodDesc := by simpa using h.prodDesc
  prodAvail := by simpa using h.prodAvail
  prodUsed := by simpa using h.prodUsed
  prodNum := by simpa using h.prodNum
  consDesc := h.consDesc
  consAvail := h.consAvail
  consUsed := h.consUsed
  consNum := h.consNum
  addr d hd := (haddr d).trans (h.addr d hd)
  prodBuf d hd := by simpa using h.prodBuf d hd
  consBuf := h.consBuf
  handler := h.handler

theorem setDesc_addr (m : Mem) (D : Loc) (a : Nat) (d : VringDesc)
    (h : d.addr = (m.desc D a).addr) (k : Nat) :
    ((m.setDesc D a d).desc D k).addr = (m.desc D k).addr := by
  rw [Mem.setDesc_desc]
  split
  · rename_i hk
    rw [hk, h]
  · rfl

/-- The loop of `process_used_vring` on a wired ring. -/
theorem Wired.walking (h : Wired E s)
    (hidx : (s.prod.vring E.vIdx).lastUsedIdx.toNat < vhostVringSize) :
    Walking E.prodSpace E.vIdx E.descLoc E.usedLoc vhostVringSize
      (.start s.prod E.vIdx s.mem) :=
  ⟨h.prodDesc, h.prodUsed, h.prodNum, Nat.le_refl _, hidx⟩

theorem Wired.step (h : Wired E s)
    (hidx : (s.prod.vring E.vIdx).lastUsedIdx.toNat < vhostVringSize) (hs : RingStep E s l t) :
    Wired E t := by
  cases hs with
  | put hput =>
      rcases putVring_ret hput with ⟨-, rfl, rfl⟩ | ⟨-, D, A, hD, -, -, -, rfl, hm, -, -⟩
      · exact ⟨h.1, h.2, h.3, h.4, h.5, h.6, h.7, h.8, h.9, h.10, h.11, h.12⟩
      · rw [h.prodDesc] at hD
        cases hD
        refine h.moveProd (fun d => ?_) _ s.seen
        rw [hm]
        exact setDesc_addr s.mem E.descLoc _ _ (by rfl) d
  | reclaim hcall =>
      obtain ⟨-, -, -, rfl⟩ := (processUsedVring_ret_iff (h.walking hidx)).mp hcall
      obtain ⟨head, idx, htable⟩ := UsedLoop.finish_table (i := E.vIdx) (D := E.descLoc)
        (U := E.usedLoc) _ s.prod s.mem
      rw [htable]
      exact h.moveProd
        ((UsedLoop.walk_frame _ (.start s.prod E.vIdx s.mem)).addr E.descLoc) s.sent s.published
  | enter _ _ => exact ⟨h.1, h.2, h.3, h.4, h.5, h.6, h.7, h.8, h.9, h.10, h.11, h.12⟩
  | serve _ hturn =>
      obtain ⟨A, d, -, -, -, hf, ht, hm, -, -⟩ := availTurn_some hturn
      have htr : ∀ a, VringTable.translate _ a = s.cons.translate a := hf.translate
      refine ⟨h.1, h.2, h.3, h.4, ?_, ?_, ?_, ?_, ?_, h.10, ?_, ?_⟩
      · simpa [ht] using h.consDesc
      · simpa [ht] using h.consAvail
      · simpa [ht] using h.consUsed
      · simpa [ht] using h.consNum
      · intro d hd
        rw [hm, hf.desc]
        exact h.addr d hd
      · intro d hd
        simpa [ht, htr] using h.consBuf d hd
      · simpa [ht, hf.handlers] using h.handler
  | leave _ _ hleave =>
      obtain ⟨l, -, hleave⟩ := Outcome.bind_eq_ret.mp hleave
      cases hleave
      exact ⟨h.1, h.2, h.3, h.4, h.5, h.6, h.7, h.8, h.9, h.10, h.11, h.12⟩

end Vapp
