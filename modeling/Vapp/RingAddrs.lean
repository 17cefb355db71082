import Vapp.ServerSteps
import Vapp.Session

/-! # Ring addresses and the memory table

`_set_vring_addr` translates the addresses of a ring with the table that is installed when
it runs, and the addresses inside the ring are translated with the table that is installed
when the ring runs.  A ring runs with addresses of another table exactly when a kick or a
poll comes between a new memory table and the new addresses.
-/
namespace Vapp

/-- After these acts, `_set_vring_addr` has stored the addresses of `s` for ring `i`, and
no memory table has been installed since. -/
def AddrsCurrent (before : List Act) (i : RingIdx) (s : RingSetup) : Prop :=
  ∃ pre post, before = pre ++ .addrSet i s.desc s.avail s.used :: post ∧ Act.tableSet ∉ post

/-- Whenever `process_avail_vring` or `put_vring` runs on a ring, the addresses of the ring
were computed under the memory table that is installed then. -/
def RunsCurrent (acts : List Act) : Prop :=
  ∀ pre i v post, acts = pre ++ .ringRun i v :: post → AddrsCurrent pre i v.setup

/-- The act of running a ring is allowed with addresses of the installed table. -/
def CurrentRun (before : List Act) : Act → Prop
  | .ringRun i v => AddrsCurrent before i v.setup
  | _ => True

theorem runsCurrent_iff {acts : List Act} :
    RunsCurrent acts ↔ Traced.Always CurrentRun [] acts := by
  rw [Traced.always_iff]
  constructor
  · intro h pre a post hacts
    rw [List.nil_append]
    cases a with
    | ringRun i v => exact h pre i v post hacts
    | _ => trivial
  · intro h pre i v post hacts
    have hrun := h pre _ post hacts
    rwa [List.nil_append] at hrun

section AddrsCurrent
variable {before : List Act} {i : RingIdx} {s : RingSetup}

/-- What one more act does to the addresses being current. -/
theorem addrsCurrent_snoc {a : Act} : AddrsCurrent (before ++ [a]) i s ↔
    a = .addrSet i s.desc s.avail s.used ∨ (a ≠ .tableSet ∧ AddrsCurrent before i s) := by
  constructor
  · rintro ⟨pre, post, heq, hpost⟩
    rcases List.eq_nil_or_concat post with rfl | ⟨post', b, rfl⟩
    · obtain ⟨_, ha⟩ := List.append_inj' heq rfl
      exact .inl (List.singleton_inj.mp ha)
    · rw [List.concat_eq_append] at heq hpost
      rw [← List.cons_append, ← List.append_assoc] at heq
      obtain ⟨hbefore, ha⟩ := List.append_inj' heq rfl
      obtain rfl := List.singleton_inj.mp ha
      refine .inr ⟨fun h => hpost ?_, pre, post', hbefore, fun h => hpost ?_⟩
      · rw [h]
        exact List.mem_append_right _ (List.mem_singleton_self _)
      · exact List.mem_append_left _ h
  · rintro (rfl | ⟨ha, pre, post, rfl, hpost⟩)
    · exact ⟨before, [], rfl, nofun⟩
    · refine ⟨pre, post ++ [a], by rw [List.append_assoc, List.cons_append], fun h => ?_⟩
      rcases List.mem_append.mp h with h | h
      · exact hpost h
      · exact ha (List.mem_singleton.mp h).symm

theorem addrsCurrent_tableSet : ¬ AddrsCurrent (before ++ [.tableSet]) i s := by
  rw [addrsCurrent_snoc]
  rintro (h | ⟨h, _⟩)
  · cases h
  · exact h rfl

/-- Other acts do not matter. -/
theorem addrsCurrent_of_ne {a : Act} (haddr : ∀ d p u, a ≠ .addrSet i d p u)
    (htable : a ≠ .tableSet) :
    AddrsCurrent (before ++ [a]) i s ↔ AddrsCurrent before i s := by
  rw [addrsCurrent_snoc]
  exact ⟨fun h => h.elim (fun h => absurd h (haddr _ _ _)) (·.2), fun h => .inr ⟨htable, h⟩⟩

/-- Running rings does not matter. -/
theorem addrsCurrent_append_runs (acts : List Act) : ∀ {before : List Act},
    (∀ a ∈ acts, ∃ j v, a = .ringRun j v) →
      (AddrsCurrent (before ++ acts) i s ↔ AddrsCurrent before i s) := by
  induction acts with
  | nil =>
      intro before _
      rw [List.append_nil]
  | cons a acts ih =>
      intro before h
      obtain ⟨j, v, rfl⟩ := h a (List.mem_cons_self ..)
      rw [← List.singleton_append, ← List.append_assoc,
        ih fun b hb => h b (List.mem_cons_of_mem _ hb)]
      exact addrsCurrent_of_ne nofun nofun

end AddrsCurrent

/-! ### Runs of the server -/

/-- What the trace, the messages that were received and the rings have to do with each
other: the addresses of a ring are current when the messages say so. -/
def Dated (before : List Act) (g : RingIdx → RingHistory) (w : World) : Prop :=
  ∀ i, AddrsCurrent before i (w.setup i) ↔ (g i).current = true

/-- The rings that the event uses were given their addresses after the last memory table. -/
def AddrsFirst (fuel : Nat) (g : RingIdx → RingHistory) (w : World) (e : Event) : Prop :=
  ∀ i, e.Uses fuel w i → (g i).current = true

section Step
variable {fuel : Nat} {before : List Act} {g : RingIdx → RingHistory} {w w' : World} {e : Event}

theorem Dated.call (h : Dated before g w) :
    Traced.Always CurrentRun before (exec fuel w e).acts ↔ AddrsFirst fuel g w e := by
  cases exec_effect fuel w e with
  | run acts uses _ _ =>
      have hruns : ∀ a ∈ (exec fuel w e).acts, ∃ j v, a = .ringRun j v := by
        intro a ha
        obtain ⟨j, v, hav, _⟩ := acts a ha
        exact ⟨j, v, hav⟩
      rw [Traced.always_iff]
      constructor
      · intro halways i hi
        obtain ⟨v, hv⟩ := uses i hi
        obtain ⟨pre, post, hacts⟩ := List.append_of_mem hv
        obtain ⟨_, _, heq, hsetup, _⟩ := acts _ hv
        cases heq
        have hrun := halways pre _ post hacts
        rw [CurrentRun, addrsCurrent_append_runs pre fun a ha =>
          hruns a (hacts ▸ List.mem_append_left _ ha), hsetup] at hrun
        exact (h i).mp hrun
      · intro hfirst pre a post hacts
        obtain ⟨i, v, rfl, hsetup, huses⟩ :=
          acts a (hacts ▸ List.mem_append_right _ (List.mem_cons_self ..))
        rw [CurrentRun, addrsCurrent_append_runs pre fun a ha =>
          hruns a (hacts ▸ List.mem_append_left _ ha), hsetup]
        exact (h i).mpr (hfirst i huses)
  | table acts unused _ _ =>
      rw [acts]
      exact ⟨fun _ i hi => absurd hi (unused i), fun _ => ⟨trivial, trivial⟩⟩
  | num i n acts unused _ _ =>
      rw [acts]
      exact ⟨fun _ i hi => absurd hi (unused i), fun _ => ⟨trivial, trivial⟩⟩
  | addr i d a u acts unused _ _ =>
      rw [acts]
      exact ⟨fun _ i hi => absurd hi (unused i), fun _ => ⟨trivial, trivial, trivial⟩⟩

theorem Dated.keep (h : Dated before g w) (hout : (exec fuel w e).out = .ret w') :
    Dated (before ++ (exec fuel w e).acts) (e.note w g) w' := by
  intro j
  cases exec_effect fuel w e with
  | run acts _ _ ret =>
      obtain ⟨hsetup, hnote⟩ := ret w' hout
      rw [hsetup, hnote, addrsCurrent_append_runs _ fun a ha => ?_]
      · exact h j
      · obtain ⟨i, v, hav, _⟩ := acts a ha
        exact ⟨i, v, hav⟩
  | table acts _ _ ret =>
      obtain ⟨hsetup, hnote⟩ := ret w' hout
      rw [acts, hnote]
      exact ⟨fun hcur => absurd hcur addrsCurrent_tableSet, nofun⟩
  | num i n acts _ _ ret =>
      obtain ⟨hsetup, hnote⟩ := ret w' hout
      rw [acts, hsetup, hnote, addrsCurrent_of_ne (a := .numSet i n) nofun nofun]
      by_cases hj : j = i
      · subst hj
        rw [Function.update_self, Function.update_self]
        exact h j
      · rw [Function.update_of_ne hj, Function.update_of_ne hj]
        exact h j
  | addr i d a u acts _ _ ret =>
      obtain ⟨hsetup, hnote⟩ := ret w' hout
      rw [acts, hsetup, hnote, ← List.singleton_append, ← List.append_assoc,
        addrsCurrent_of_ne (a := .usedRead i u) nofun nofun]
      by_cases hj : j = i
      · subst hj
        rw [Function.update_self, Function.update_self, addrsCurrent_snoc]
        exact ⟨fun _ => rfl, fun _ => .inl rfl⟩
      · rw [Function.update_of_ne hj, Function.update_of_ne hj,
          addrsCurrent_of_ne (a := .addrSet i d a u) (fun _ _ _ heq => ?_) nofun]
        · exact h j
        · cases heq
          exact hj rfl

end Step

/-- **When rings run with addresses of the installed memory table**: for any sequence of
events, from a fresh server on, they do exactly when every kick or poll that uses a ring
comes after a `SET_VRING_ADDR` for it that came after the last `SET_MEM_TABLE`. -/
theorem rings_run_current_iff (fuel : Nat) (sock : Int) (isListen : Bool) (space : AddrSpace)
    (mem : Mem) (es : List Event) :
    RunsCurrent (execAll fuel ⟨newVhostServer sock isListen, space, mem⟩ es).acts ↔
      Traced.AllInputs (exec fuel) (fun w e => e.note w) (AddrsFirst fuel) (fun _ => .start)
        ⟨newVhostServer sock isListen, space, mem⟩ es := by
  rw [runsCurrent_iff]
  refine Traced.runAll_always_iff (I := Dated) (fun _ _ _ _ h => h.call)
    (fun _ _ _ _ _ h _ hout => h.keep hout) es fun i => ?_
  refine ⟨?_, nofun⟩
  rintro ⟨pre, post, heq, _⟩
  exact absurd heq (by simp)

/-- A client that sends its memory table again, and then kicks; the server is polled after
each event. -/
def resentTable (S : Session) : List Event :=
  [Event.accept 11,
    .message 11 S.memTable S.maps,
    .message 11 (stateMsg .setVringNum ⟨1, .ofNat vhostVringSize⟩) S.maps,
    .message 11 (fileMsg .setVringKick 1 (S.kickfd txIdx)) S.maps,
    .message 11 (addrMsg (vringAddr 1 (S.clientBase txIdx))) S.maps,
    .message 11 S.memTable S.maps,
    .kick (S.kickfd txIdx) 8].flatMap fun e => [e, .poll]

/-- The kick runs the TX ring with the addresses of the first table. -/
theorem rings_run_stale :
    ¬ RunsCurrent (execAll 1 ⟨newVhostServer 10 true, [], Mem.zero⟩
      (resentTable .demo)).acts := by
  intro h
  have hacts : (execAll 1 ⟨newVhostServer 10 true, [], Mem.zero⟩ (resentTable .demo)).acts =
      [.tableSet, .numSet txIdx 32768,
        .addrSet txIdx 0x7f4000000008 0x7f4000080008 0x7f4000091000,
        .usedRead txIdx 0x7f4000091000] ++ [.tableSet] ++
      [.ringRun txIdx
        { initVring with
          kickfd := 7
          desc := 0x7f4000000008
          avail := 0x7f4000080008
          used := 0x7f4000091000
          num := 32768 }] := by
    decide +kernel
  exact addrsCurrent_tableSet (h _ _ _ [] hacts)

end Vapp
