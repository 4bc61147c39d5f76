import Mathlib.Algebra.NeZero
import Mathlib.Algebra.Ring.Nat
import NixStrixHalo.Library.Shell
import NixStrixHalo.Bench.StreamClient

/-!
# The transport matrix

The main loop of `vllm-transport-matrix.sh`: it starts a server for each block of cases with one
transport and model, and benchmarks the cases or, when the server could not be started, skips them.

## Where `errexit` is in force

The script runs with `errexit`, which is suppressed in `start_server`, called in the condition of an
`if`, and in force in `run_case`. So a server that does not become ready counts as started, and a
case whose requests all fail ends the script. Every case of the plan gets its row exactly when
neither happens (`coversPlan_iff`).

## What is modelled

The functions of the script are commands of `Shell`, with a simple command for each program that
they call; which of these succeed is given by the line of the plan (`PlanLine`). A command that only
asks something has no effect on the script's variables. The turns of `wait_ready` are as many as its
timeout allows, and what it finds at each is given as well.

## The proof

Every function has a lemma that says what it gives (`exec_stopServer`, `exec_startServer`,
`exec_runCase`), and a turn of the loop one that combines them. The script has started a server for
the line at hand if the key of the block is the same as before, so a case is under the attempt of
the first line of its block (`withAttempts`). From then on the rows of a plan are those of its lines
up to the first whose command fails (`rowsUntilExit`), and the condition can be read off this list.
-/

namespace Bench

open Shell

/-! ### The environment of the script -/

/-- The transports that `start_server` knows. -/
inductive Transport
  | solo
  | lanTcp
  | usb4Rdma
  | tbTcp
  | tbRxe
  deriving DecidableEq

/-- The patterns of the script's `case "$transport"`. -/
def Transport.ofString (transport : String) : Option Transport :=
  if transport = "solo" then some .solo
  else if transport = "lan_tcp" then some .lanTcp
  else if transport = "usb4_rdma" then some .usb4Rdma
  else if transport = "tb_tcp" then some .tbTcp
  else if transport = "tb_rxe" then some .tbRxe
  else none

/-- The variables that steer the script. The four addresses are empty when they are not set. -/
structure Config where
  lanIfname : String := "br0.lan"
  remoteLanIfname : String := "br0.lan"
  tbIfname : String := "thunderbolt0"
  remoteTbIfname : String := "thunderbolt0"
  usb4Hca : String := "usb4_rdma2,usb4_rdma3"
  rxeHca : String := "rxe_tb"
  head : String := ""
  worker : String := ""
  tbHead : String := ""
  tbWorker : String := ""
  allowModprobeTb : String := "0"
  setupRxe : String := "1"
  startupTimeoutS : ℕ := 360

/-- The commands outside of the script that `stop_server` runs. -/
inductive StopCommand
  | kill
  | wait
  | rayStop
  | remoteRayStop
  | tailLog

/-- The commands outside of the script that `start_server` runs. -/
inductive StartCommand
  | mkdirJit
  | remoteMkdirJit
  | ifacePair
  | modprobeTb
  | remoteModprobeTb
  | ifacePairAfter
  | rdmaLink
  | remoteRdmaLink
  | modprobeRxe
  | remoteModprobeRxe
  | linkAdd
  | remoteLinkAdd
  | ifaceIpv4
  | remoteIfaceIpv4
  | truncateLog
  | rayHead
  | rayWorker
  | warmup
  | grepLog

/-- What a turn of `wait_ready` finds: whether the log says that the startup is complete, and
whether the server is alive. -/
structure Poll where
  complete : Bool
  alive : Bool

/-- What the commands of a run of `start_server` give, and of the `stop_server` after a failure. -/
structure StartOutcome where
  status : StartCommand → ℕ
  stop : StopCommand → ℕ
  stopFailed : StopCommand → ℕ
  ipv4 : String → String
  remoteIpv4 : String → String
  logIsEmpty : Bool
  polls : ℕ → Poll

/-- A line of the plan, with what happens at its turn. -/
structure PlanLine where
  case : Case
  start : StartOutcome
  localHcas : List String
  remoteHcas : List String
  client : ClientOutcome

/-- The variables of the script, and the CSV file. -/
structure Script where
  csv : List Row
  vllmPid : Bool := false
  lastKey : String := ""
  startFailedReason : String := ""
  deriving DecidableEq

variable (cfg : Config)

/-! ### Functions of the script -/

/-- `stop_server`. -/
def stopServer (o : StopCommand → ℕ) (logIsEmpty : Bool) (status : ℕ) : Cmd Script :=
  .call (.block [
    .cond (.test Script.vllmPid)
      (.block [.orTrue (.status (o .kill)), .orTrue (.status (o .wait)),
        .modify fun s ↦ { s with vllmPid := false }])
      (.status 0),
    .call (.block [.orTrue (.status (o .rayStop)), .orTrue (.status (o .remoteRayStop))]),
    .cond (.test fun _ ↦ status ≠ 0 ∧ !logIsEmpty) (.orTrue (.status (o .tailLog))) (.status 0)])

/-- `ensure_thunderbolt_net`. -/
def ensureThunderboltNet (o : StartOutcome) : Cmd Script :=
  .call (.block [
    .cond (.status (o.status .ifacePair)) (.ret 0) (.status 0),
    .cond (.test fun _ ↦ cfg.allowModprobeTb ≠ "1") (.ret 1) (.status 0),
    .orTrue (.status (o.status .modprobeTb)),
    .orTrue (.status (o.status .remoteModprobeTb)),
    .status (o.status .ifacePairAfter)])

/-- The body of `ensure_rxe`. -/
def ensureRxe (o : StartOutcome) : Cmd Script :=
  .cond (.test fun _ ↦ cfg.setupRxe ≠ "1")
    (.andThen (.status (o.status .rdmaLink)) (.status (o.status .remoteRdmaLink)))
    (.block [
      .orTrue (.status (o.status .modprobeRxe)),
      .orTrue (.status (o.status .remoteModprobeRxe)),
      .cond (.status (o.status .rdmaLink)) (.status 0) (.status (o.status .linkAdd)),
      .cond (.status (o.status .remoteRdmaLink)) (.status 0) (.status (o.status .remoteLinkAdd))])

/-- `head` and `worker` of a transport; `solo` has none. -/
def addresses (o : StartOutcome) : Transport → String × String
  | .solo => ("", "")
  | .lanTcp | .usb4Rdma =>
    (if cfg.head = "" then o.ipv4 cfg.lanIfname else cfg.head,
      if cfg.worker = "" then o.remoteIpv4 cfg.remoteLanIfname else cfg.worker)
  | .tbTcp | .tbRxe =>
    (if cfg.tbHead = "" then o.ipv4 cfg.tbIfname else cfg.tbHead,
      if cfg.tbWorker = "" then o.remoteIpv4 cfg.remoteTbIfname else cfg.tbWorker)

/-- The `case` of `start_server`. -/
def selectTransport (o : StartOutcome) (transport : Option Transport) : Cmd Script :=
  let queries := .seq (.status (o.status .ifaceIpv4)) (.status (o.status .remoteIfaceIpv4))
  match transport with
  | some .solo => .status 0
  | some .lanTcp | some .usb4Rdma => queries
  | some .tbTcp => .seq (.orElse (ensureThunderboltNet cfg o) (.ret 10)) queries
  | some .tbRxe =>
    .seq (.orElse (ensureThunderboltNet cfg o) (.ret 10)) (.seq (.call (ensureRxe cfg o)) queries)
  | none => .ret 2

/-- The check that both addresses are known. -/
def missesIp (o : StartOutcome) (transport : Option Transport) : Bool :=
  match transport with
  | some .solo | none => false
  | some t => (addresses cfg o t).1 = "" ∨ (addresses cfg o t).2 = ""

/-- The commands that start the server in the background. -/
def launch (o : StartOutcome) (transport : Option Transport) : Cmd Script :=
  let serve := .modify fun s ↦ { s with vllmPid := true }
  match transport with
  | some .solo => serve
  | _ => .seq (.status (o.status .rayHead)) (.seq (.status (o.status .rayWorker)) serve)

/-- The loop of `wait_ready`. -/
def waitReadyLoop : List Poll → Cmd Script
  | [] => .ret 1
  | p :: polls =>
    .seq (.cond (.test fun _ ↦ p.complete) (.ret 0) (.status 0))
      (.seq (.cond (.test fun s ↦ s.vllmPid && !p.alive) (.ret 1) (.status 0))
        (waitReadyLoop polls))

/-- The turns of `wait_ready`, one every five seconds. -/
def pollList (o : StartOutcome) : List Poll :=
  (List.range ((cfg.startupTimeoutS + 4) / 5)).map o.polls

/-- `wait_ready`. -/
def waitReady (o : StartOutcome) : Cmd Script := .call (waitReadyLoop (pollList cfg o))

/-- `start_server`. Its last command is a pipeline with `|| true`. -/
def startServer (o : StartOutcome) (transport : String) : Cmd Script :=
  .call (.block [
    stopServer o.stop o.logIsEmpty 0,
    .status (o.status .mkdirJit),
    .orTrue (.status (o.status .remoteMkdirJit)),
    selectTransport cfg o (Transport.ofString transport),
    .cond (.test fun _ ↦ missesIp cfg o (Transport.ofString transport)) (.ret 10) (.status 0),
    .status (o.status .truncateLog),
    launch o (Transport.ofString transport),
    waitReady cfg o,
    .status (o.status .warmup),
    .orTrue (.status (o.status .grepLog))])

/-- `transport_parallelism`. -/
def transportParallelism (transport : String) : String :=
  if transport = "solo" then "solo" else "tp2"

/-- A run of the client. -/
def runClient (args : Script → ClientArgs) (o : ClientOutcome) : Cmd Script :=
  .run fun s ↦
    ((clientMain (args s) o).1, { s with csv := s.csv ++ (clientMain (args s) o).2.toList })

/-- The reason that the script records. -/
def startFailed : String := "server-start-failed-or-transport-unavailable"

/-- What `append_skip` passes to the client, as the main loop calls it. -/
def skipArgs (case : Case) (reason : String) : ClientArgs :=
  let args := { case, parallelism := transportParallelism case.transport, skipReason := reason }
  match Transport.ofString case.transport with
  | some .lanTcp => { args with socketIfname := cfg.lanIfname }
  | some .usb4Rdma => { args with socketIfname := cfg.lanIfname, rdmaHca := cfg.usb4Hca }
  | some .tbTcp => { args with socketIfname := cfg.tbIfname }
  | some .tbRxe => { args with socketIfname := cfg.tbIfname, rdmaHca := cfg.rxeHca }
  | _ => args

/-- `append_skip`. -/
def appendSkip (l : PlanLine) : Cmd Script :=
  .call (runClient (fun s ↦ skipArgs cfg l.case s.startFailedReason) l.client)

/-- `resolve_usb4_hca`. -/
def resolveUsb4Hca (localHcas remoteHcas : List String) : Option String :=
  if cfg.usb4Hca ≠ "auto" then some cfg.usb4Hca
  else
    let resolved := localHcas.filter fun hca ↦ hca ≠ "" ∧ hca ∈ remoteHcas
    if resolved = [] then none else some (",".intercalate resolved)

/-- The assignment to `rdma_hca` in `run_case`: its value, and `none` where it fails. -/
def caseHca (l : PlanLine) : Option String :=
  match Transport.ofString l.case.transport with
  | some .usb4Rdma => resolveUsb4Hca cfg l.localHcas l.remoteHcas
  | some .tbRxe => some cfg.rxeHca
  | _ => some ""

/-- What `run_case` passes to the client. -/
def caseArgs (l : PlanLine) (rdmaHca : String) : ClientArgs :=
  { case := l.case, parallelism := transportParallelism l.case.transport, rdmaHca,
    socketIfname :=
      match Transport.ofString l.case.transport with
      | some .lanTcp | some .usb4Rdma => cfg.lanIfname ++ "/" ++ cfg.remoteLanIfname
      | some .tbTcp | some .tbRxe => cfg.tbIfname ++ "/" ++ cfg.remoteTbIfname
      | _ => "" }

/-- `run_case`. -/
def runCase (l : PlanLine) : Cmd Script :=
  .call (.seq (.status (if caseHca cfg l = none then 1 else 0))
    (runClient (fun _ ↦ caseArgs cfg l ((caseHca cfg l).getD "")) l.client))

/-! ### The main loop -/

/-- The key of a block of cases. -/
def PlanLine.key (l : PlanLine) : String := l.case.transport ++ "\t" ++ l.case.model

/-- The start of the server of a new block. -/
def startBlock (l : PlanLine) : Cmd Script :=
  .cond (.test fun s ↦ l.key ≠ s.lastKey)
    (.block [
      .modify fun s ↦ { s with startFailedReason := "" },
      .cond (startServer cfg l.start l.case.transport) (.status 0)
        (.block [
          .modify fun s ↦ { s with startFailedReason := startFailed },
          stopServer l.start.stopFailed l.start.logIsEmpty 1]),
      .modify fun s ↦ { s with lastKey := l.key }])
    (.status 0)

/-- A turn of the loop. -/
def turn (l : PlanLine) : Cmd Script :=
  .seq (startBlock cfg l)
    (.cond (.test fun s ↦ s.startFailedReason ≠ "") (appendSkip cfg l) (runCase cfg l))

/-- The rows that the main loop appends to a CSV file. -/
def newRows (csv : List Row) (plan : List PlanLine) : List Row :=
  (exec true (.forEach (turn cfg) plan) { csv }).2.csv.drop csv.length

variable {cfg} {o : StartOutcome} {l : PlanLine} {plan : List PlanLine}

/-! ### Starting a server -/

theorem exec_stopServer (stop : StopCommand → ℕ) (logIsEmpty : Bool) (status : ℕ) (errexit : Bool)
    (s : Script) :
    exec errexit (stopServer stop logIsEmpty status) s =
      (.done 0, { s with vllmPid := false }) := by
  -- what its commands return is ignored
  have hkill : exec errexit (.cond (.test Script.vllmPid)
      (.block [.orTrue (.status (stop .kill)), .orTrue (.status (stop .wait)),
        .modify fun s ↦ { s with vllmPid := false }]) (.status 0)) s =
      (.done 0, { s with vllmPid := false }) := by
    rw [exec_cond_test]
    split
    · rw [exec_block_of_done (exec_orTrue_status _ _ _), exec_block_of_done
        (exec_orTrue_status _ _ _), exec_block_singleton, exec_modify]
    next hpid =>
      rw [exec_status, raise_zero]
      rcases s with ⟨csv, pid, lastKey, reason⟩
      rw [Bool.not_eq_true] at hpid
      exact congrArg (Outcome.done 0, Script.mk csv · lastKey reason) hpid
  have hray : exec errexit (.call (.block [.orTrue (.status (stop .rayStop)),
      .orTrue (.status (stop .remoteRayStop))])) { s with vllmPid := false } =
      (.done 0, { s with vllmPid := false }) := by
    refine (exec_call_of_done ?_).trans (by rw [raise_zero])
    rw [exec_block_of_done (exec_orTrue_status _ _ _), exec_block_singleton, exec_orTrue_status]
  refine (exec_call_of_done ?_).trans (by rw [raise_zero])
  rw [exec_block_of_done hkill, exec_block_of_done hray, exec_block_singleton, exec_cond_test]
  split
  · rw [exec_orTrue_status]
  · rw [exec_status, raise_zero]

variable (cfg) in
/-- The status of `ensure_thunderbolt_net`. -/
def thunderboltStatus (o : StartOutcome) : ℕ :=
  if o.status .ifacePair = 0 then 0
  else if cfg.allowModprobeTb ≠ "1" then 1
  else o.status .ifacePairAfter

theorem exec_ensureThunderboltNet (s : Script) :
    exec false (ensureThunderboltNet cfg o) s = (.done (thunderboltStatus cfg o), s) := by
  have hpair : exec false (.cond (.status (o.status .ifacePair)) (.ret 0) (.status 0)) s =
      if o.status .ifacePair = 0 then (.returned 0, s) else (.done 0, s) := by
    rw [exec_cond_of_done (exec_status_false _ _), exec_status_false]
    rfl
  have hallow : exec false
      (.cond (.test fun _ ↦ cfg.allowModprobeTb ≠ "1") (.ret 1) (.status 0)) s =
      if cfg.allowModprobeTb ≠ "1" then (.returned 1, s) else (.done 0, s) := by
    rw [exec_cond_test, exec_status_false, if_congr decide_eq_true_iff rfl rfl]
    rfl
  rw [ensureThunderboltNet, thunderboltStatus]
  by_cases h₁ : o.status .ifacePair = 0
  · rw [if_pos h₁] at hpair ⊢
    rw [exec_call_of_returned (exec_block_of_returned hpair), raise_false]
  · rw [if_neg h₁] at hpair ⊢
    by_cases h₂ : cfg.allowModprobeTb ≠ "1"
    · rw [if_pos h₂] at hallow ⊢
      refine (exec_call_of_returned ((exec_block_of_done hpair).trans
        (exec_block_of_returned hallow))).trans (by rw [raise_false])
    · rw [if_neg h₂] at hallow ⊢
      refine (exec_call_of_done ?_).trans (congrArg (·, s) (raise_false _))
      rw [exec_block_of_done hpair, exec_block_of_done hallow, exec_block_of_done
        (exec_orTrue_status _ _ _), exec_block_of_done (exec_orTrue_status _ _ _),
        exec_block_singleton, exec_status_false]

theorem readOnly_ensureRxe (cfg : Config) (o : StartOutcome) : (ensureRxe cfg o).ReadOnly := by
  simp [ensureRxe, Cmd.ReadOnly, Cmd.All, Cmd.block, Cmd.orTrue, Cmd.status, Cmd.test]

variable (cfg) in
/-- Whether `start_server` gets to the start of the server: the transport is known, its network is
up, and both addresses are known. -/
def transportUp (o : StartOutcome) (transport : Option Transport) : Bool :=
  (match transport with
    | none => false
    | some .tbTcp | some .tbRxe => thunderboltStatus cfg o = 0
    | _ => true) && !missesIp cfg o transport

theorem exec_queries (s : Script) : exec false (.seq (.status (o.status .ifaceIpv4))
    (.status (o.status .remoteIfaceIpv4))) s = (.done (o.status .remoteIfaceIpv4), s) := by
  rw [exec_seq_of_done (exec_status_false _ _), exec_status_false]

/-- The thunderbolt transports go on when the network is up, and return otherwise. -/
theorem exec_orElse_ensureThunderboltNet (cfg : Config) (o : StartOutcome) (s : Script) :
    exec false (.orElse (ensureThunderboltNet cfg o) (.ret 10)) s =
      if thunderboltStatus cfg o = 0 then (.done 0, s) else (.returned 10, s) := by
  rw [exec_orElse_of_done (exec_ensureThunderboltNet s)]
  rfl

/-- The `case` of `start_server` goes on, or returns where no server is started. -/
theorem exec_selectTransport (transport : Option Transport) (s : Script) :
    (∃ n, exec false (selectTransport cfg o transport) s = (.done n, s) ∧
        transportUp cfg o transport = !missesIp cfg o transport) ∨
      transportUp cfg o transport = false ∧
        ∃ n ≠ 0, exec false (selectTransport cfg o transport) s = (.returned n, s) := by
  have htb := exec_orElse_ensureThunderboltNet cfg o s
  obtain ⟨n, hrxe⟩ := (readOnly_ensureRxe cfg o).exists_exec_call s
  rcases transport with _ | _ | _ | _ | _ | _
  · exact Or.inr ⟨rfl, 2, two_ne_zero, rfl⟩
  · exact Or.inl ⟨0, exec_status_false _ _, rfl⟩
  · exact Or.inl ⟨_, exec_queries s, rfl⟩
  · exact Or.inl ⟨_, exec_queries s, rfl⟩
  · by_cases h : thunderboltStatus cfg o = 0
    · rw [if_pos h] at htb
      exact Or.inl ⟨_, (exec_seq_of_done htb).trans (exec_queries s), by simp [transportUp, h]⟩
    · rw [if_neg h] at htb
      exact Or.inr ⟨by simp [transportUp, h], 10, by decide, exec_seq_of_returned htb⟩
  · by_cases h : thunderboltStatus cfg o = 0
    · rw [if_pos h] at htb
      exact Or.inl ⟨_, (exec_seq_of_done htb).trans
        ((exec_seq_of_done hrxe).trans (exec_queries s)), by simp [transportUp, h]⟩
    · rw [if_neg h] at htb
      exact Or.inr ⟨by simp [transportUp, h], 10, by decide, exec_seq_of_returned htb⟩

/-- Whether a server becomes ready before it exits and before the turns are over. -/
def becomesReady : List Poll → Bool
  | [] => false
  | p :: polls => p.complete || p.alive && becomesReady polls

/-- The wait returns success exactly when a poll finds the server ready. -/
theorem exec_waitReadyLoop (polls : List Poll) {s : Script} (hs : s.vllmPid = true) :
    exec false (waitReadyLoop polls) s =
      (.returned (if becomesReady polls then 0 else 1), s) := by
  induction polls with
  | nil => rfl
  | cons p polls ih =>
    have hcomplete : exec false (.cond (.test fun _ ↦ p.complete) (.ret 0) (.status 0)) s =
        if p.complete then (.returned 0, s) else (.done 0, s) := by
      rw [exec_cond_test, exec_status_false]
      rfl
    have halive : exec false (.cond (.test fun s ↦ s.vllmPid && !p.alive) (.ret 1) (.status 0)) s =
        if p.alive then (.done 0, s) else (.returned 1, s) := by
      rw [exec_cond_test, exec_status_false, hs, Bool.true_and]
      cases p.alive
      · rfl
      · rfl
    rw [waitReadyLoop, becomesReady]
    by_cases hc : p.complete
    · rw [if_pos hc] at hcomplete
      rw [exec_seq_of_returned hcomplete, hc]
      rfl
    · rw [if_neg hc] at hcomplete
      rw [exec_seq_of_done hcomplete, Bool.eq_false_iff.2 hc, Bool.false_or]
      by_cases ha : p.alive
      · rw [if_pos ha] at halive
        rw [exec_seq_of_done halive, ih, ha, Bool.true_and]
      · rw [if_neg ha] at halive
        rw [exec_seq_of_returned halive, Bool.eq_false_iff.2 ha]
        rfl

/-- `wait_ready` says whether the server becomes ready. -/
theorem exec_waitReady {s : Script} (hs : s.vllmPid = true) :
    exec false (waitReady cfg o) s =
      (.done (if becomesReady (pollList cfg o) then 0 else 1), s) := by
  rw [waitReady, exec_call_of_returned (exec_waitReadyLoop _ hs), raise_false]

theorem exec_launch (transport : Option Transport) (s : Script) :
    exec false (launch o transport) s = (.done 0, { s with vllmPid := true }) := by
  have hray : exec false (.seq (.status (o.status .rayHead)) (.seq (.status (o.status .rayWorker))
      (.modify fun s ↦ { s with vllmPid := true }))) s =
      (.done 0, { s with vllmPid := true }) := by
    rw [exec_seq_of_done (exec_status_false _ _), exec_seq_of_done (exec_status_false _ _),
      exec_modify]
  rcases transport with _ | _ | _ | _ | _ | _
  · exact hray
  · exact exec_modify _ _ _
  · exact hray
  · exact hray
  · exact hray
  · exact hray

/-- `start_server` fails exactly when it does not get to the start of the server. Whether the server
becomes ready has no part in its status. -/
theorem exec_startServer (cfg : Config) (o : StartOutcome) (transport : String) (s : Script) :
    ∃ n, exec false (startServer cfg o transport) s =
        (.done n, { s with vllmPid := transportUp cfg o (Transport.ofString transport) }) ∧
      (n = 0 ↔ transportUp cfg o (Transport.ofString transport)) := by
  generalize hs : ({ s with vllmPid := false } : Script) = s₀
  -- `start_server` runs as a condition, so `errexit` is off and a failing command goes on
  have hmkdir : exec false (startServer cfg o transport) s = exec false (.call (.block [
      selectTransport cfg o (Transport.ofString transport),
      .cond (.test fun _ ↦ missesIp cfg o (Transport.ofString transport)) (.ret 10) (.status 0),
      .status (o.status .truncateLog),
      launch o (Transport.ofString transport),
      waitReady cfg o,
      .status (o.status .warmup),
      .orTrue (.status (o.status .grepLog))])) s₀ := by
    rw [startServer, exec, exec, exec_block_of_done (exec_stopServer _ _ _ _ _), exec_block_of_done
      (exec_status_false _ _), exec_block_of_done (exec_orTrue_status _ _ _), hs]
  have hmisses : exec false (.cond (.test fun _ ↦ missesIp cfg o (Transport.ofString transport))
      (.ret 10) (.status 0)) s₀ =
      if missesIp cfg o (Transport.ofString transport) then (.returned 10, s₀)
      else (.done 0, s₀) := by
    rw [exec_cond_test, exec_status_false]
    rfl
  have hfailed : ∀ {n}, n ≠ 0 → transportUp cfg o (Transport.ofString transport) = false →
      exec false (startServer cfg o transport) s = (.done n, s₀) → ∃ n,
      exec false (startServer cfg o transport) s =
        (.done n, { s with vllmPid := transportUp cfg o (Transport.ofString transport) }) ∧
      (n = 0 ↔ transportUp cfg o (Transport.ofString transport)) := by
    intro n hn hup hexec
    refine ⟨n, by rw [hexec, hup, hs], iff_of_false hn ?_⟩
    rw [hup]
    exact Bool.false_ne_true
  rcases exec_selectTransport (Transport.ofString transport) s₀ with ⟨n, hselect, hup⟩ |
    ⟨hup, n, hn, hselect⟩
  · by_cases hip : missesIp cfg o (Transport.ofString transport)
    · rw [hip, Bool.not_true] at hup
      rw [if_pos hip] at hmisses
      refine hfailed (by decide) hup (hmkdir.trans ((exec_call_of_returned ?_).trans
        (congrArg (·, s₀) (raise_false 10))))
      rw [exec_block_of_done hselect, exec_block_of_returned hmisses]
    · rw [Bool.eq_false_iff.2 hip, Bool.not_false] at hup
      rw [if_neg hip] at hmisses
      refine ⟨0, hmkdir.trans ((exec_call_of_done ?_).trans (congrArg (·, _) (raise_false 0))),
        iff_of_true rfl hup⟩
      rw [exec_block_of_done hselect, exec_block_of_done hmisses, exec_block_of_done
        (exec_status_false _ _), exec_block_of_done (exec_launch _ _), exec_block_of_done
        (exec_waitReady rfl), exec_block_of_done (exec_status_false _ _), exec_block_singleton,
        exec_orTrue_status, hup, ← hs]
  · exact hfailed hn hup (hmkdir.trans ((exec_call_of_returned
      (exec_block_of_returned hselect)).trans (congrArg (·, s₀) (raise_false n))))

/-! ### The turns of the loop -/

/-- An attempt to start the server of a transport and a model, and how it goes. -/
structure Attempt where
  key : String
  up : Bool
  ready : Bool

/-- The server became ready. -/
def Attempt.serverReady (a : Attempt) : Bool := a.up && a.ready

variable (cfg) in
/-- The attempt that a line makes when it is the first of its block. -/
def PlanLine.attempt (l : PlanLine) : Attempt :=
  { key := l.key, up := transportUp cfg l.start (Transport.ofString l.case.transport),
    ready := becomesReady (pollList cfg l.start) }

variable (cfg) in
/-- The attempt that a line is under: that of the line before it if the key is the same. -/
def PlanLine.under (l : PlanLine) (last : Option Attempt) : Attempt :=
  match last with
  | some a => if l.key ≠ a.key then l.attempt cfg else a
  | none => l.attempt cfg

variable (cfg) in
/-- The lines of a plan with the attempts that they are under. -/
def withAttempts (last : Option Attempt) : List PlanLine → List (PlanLine × Attempt)
  | [] => []
  | l :: plan => (l, l.under cfg last) :: withAttempts (some (l.under cfg last)) plan

/-- The variables of the script after an attempt. -/
structure Script.AgreesWith (s : Script) (last : Option Attempt) : Prop where
  lastKey : s.lastKey = last.elim "" Attempt.key
  reason : ∀ a, last = some a → s.startFailedReason = if a.up then "" else startFailed

theorem PlanLine.key_ne_empty (l : PlanLine) : l.key ≠ "" := by
  intro h
  have hlength := congrArg String.length h
  simp [PlanLine.key] at hlength

/-- After the start of a block the variables say how its attempt went. -/
theorem exec_startBlock (cfg : Config) (l : PlanLine) {s : Script} {last : Option Attempt}
    (hs : s.AgreesWith last) :
    ∃ s', exec true (startBlock cfg l) s = (.done 0, s') ∧ s'.csv = s.csv ∧
      s'.AgreesWith (some (l.under cfg last)) := by
  rw [startBlock, exec_cond_test]
  -- the same key as before: the server is left as it is
  by_cases hkey : l.key = s.lastKey
  · rw [if_neg (by simpa using hkey), exec_status, raise_zero]
    refine ⟨s, rfl, rfl, ?_⟩
    rcases last with _ | a
    · exact absurd (hkey.trans hs.lastKey) l.key_ne_empty
    · have hunder : l.under cfg (some a) = a := if_neg (not_not.2 (hkey.trans hs.lastKey))
      rw [hunder]
      exact hs
  · rw [if_pos (by simpa using hkey), exec_block_of_done (exec_modify _ _ _)]
    have hunder : l.under cfg last = l.attempt cfg := by
      rcases last with _ | a
      · rfl
      · exact if_pos fun heq ↦ hkey (heq.trans hs.lastKey.symm)
    rw [hunder]
    obtain ⟨n, hstart, hn⟩ := exec_startServer cfg l.start l.case.transport
      { s with startFailedReason := "" }
    by_cases hup : transportUp cfg l.start (Transport.ofString l.case.transport)
    · have hcond : exec true (.cond (startServer cfg l.start l.case.transport) (.status 0)
          (.block [.modify fun s ↦ { s with startFailedReason := startFailed },
            stopServer l.start.stopFailed l.start.logIsEmpty 1]))
          { s with startFailedReason := "" } =
          (.done 0, { s with startFailedReason := "", vllmPid := true }) := by
        rw [exec_cond_of_done hstart, if_pos (hn.2 hup), exec_status, raise_zero, hup]
      refine ⟨{ s with startFailedReason := "", vllmPid := true, lastKey := l.key },
        by rw [exec_block_of_done hcond, exec_block_singleton, exec_modify], rfl, rfl, ?_⟩
      rintro a ⟨⟩
      exact (if_pos hup).symm
    · have hcond : exec true (.cond (startServer cfg l.start l.case.transport) (.status 0)
          (.block [.modify fun s ↦ { s with startFailedReason := startFailed },
            stopServer l.start.stopFailed l.start.logIsEmpty 1]))
          { s with startFailedReason := "" } =
          (.done 0, { s with startFailedReason := startFailed, vllmPid := false }) := by
        rw [exec_cond_of_done hstart, if_neg fun h ↦ hup (hn.1 h), exec_block_of_done
          (exec_modify _ _ _), exec_block_singleton, exec_stopServer]
      refine ⟨{ s with startFailedReason := startFailed, vllmPid := false, lastKey := l.key },
        by rw [exec_block_of_done hcond, exec_block_singleton, exec_modify], rfl, rfl, ?_⟩
      rintro a ⟨⟩
      exact (if_neg hup).symm

variable (cfg) in
/-- What a case gives under an attempt: the exit status of its command, and its row. -/
def caseResult (p : PlanLine × Attempt) : ℕ × Option Row :=
  if p.2.up then
    match caseHca cfg p.1 with
    | none => (1, none)
    | some rdmaHca => clientMain (caseArgs cfg p.1 rdmaHca) p.1.client
  else clientMain (skipArgs cfg p.1.case startFailed) p.1.client

theorem exec_runClient (errexit : Bool) (args : Script → ClientArgs) (c : ClientOutcome)
    (s : Script) : exec errexit (runClient args c) s = (raise errexit (clientMain (args s) c).1,
      { s with csv := s.csv ++ (clientMain (args s) c).2.toList }) := rfl

/-- **A case** appends the row of its client, unless the HCA is not found. -/
theorem exec_runCase (s : Script) : exec true (runCase cfg l) s =
    match caseHca cfg l with
    | none => (.exited 1, s)
    | some rdmaHca => (raise true (clientMain (caseArgs cfg l rdmaHca) l.client).1,
        { s with csv := s.csv ++ (clientMain (caseArgs cfg l rdmaHca) l.client).2.toList }) := by
  rw [runCase]
  rcases caseHca cfg l with _ | rdmaHca
  · rfl
  · refine exec_call_of_raise ?_
    rw [if_neg (Option.some_ne_none rdmaHca), exec_seq_of_done
      ((exec_status true 0 s).trans (congrArg (·, s) (raise_zero true))), exec_runClient,
      Option.getD_some]

/-- A case that is skipped appends a row, too. -/
theorem exec_appendSkip (s : Script) : exec true (appendSkip cfg l) s =
    (raise true (clientMain (skipArgs cfg l.case s.startFailedReason) l.client).1,
      { s with csv := s.csv ++
          (clientMain (skipArgs cfg l.case s.startFailedReason) l.client).2.toList }) :=
  exec_call_of_raise (exec_runClient _ _ _ _)

/-- A turn appends the row of its case, and exits the shell when the command of the case fails. -/
theorem exec_turn (cfg : Config) (l : PlanLine) {s : Script} {last : Option Attempt}
    (hs : s.AgreesWith last) :
    ∃ s', exec true (turn cfg l) s = (raise true (caseResult cfg (l, l.under cfg last)).1, s') ∧
      s'.csv = s.csv ++ (caseResult cfg (l, l.under cfg last)).2.toList ∧
      s'.AgreesWith (some (l.under cfg last)) := by
  obtain ⟨s₁, hstart, hcsv, hagrees⟩ := exec_startBlock cfg l hs
  have hreason := hagrees.reason _ rfl
  rw [turn, exec_seq_of_done hstart, exec_cond_test, caseResult, ← hcsv]
  by_cases hup : (l.under cfg last).up
  · rw [if_pos hup] at hreason
    rw [if_neg (by simp [hreason]), if_pos hup, exec_runCase]
    rcases caseHca cfg l with _ | rdmaHca
    · exact ⟨s₁, rfl, (List.append_nil _).symm, hagrees⟩
    · exact ⟨_, rfl, rfl, hagrees.lastKey, hagrees.reason⟩
  · rw [if_neg hup] at hreason
    rw [if_pos (by simp [hreason, startFailed]), if_neg hup, exec_appendSkip, ← hreason]
    exact ⟨_, rfl, rfl, hagrees.lastKey, hagrees.reason⟩

variable (cfg) in
/-- The rows of these cases, up to the first whose command fails. -/
def rowsUntilExit : List (PlanLine × Attempt) → List Row
  | [] => []
  | p :: plan =>
    (caseResult cfg p).2.toList ++
      if (caseResult cfg p).1 = 0 then rowsUntilExit plan else []

/-- **The loop over the plan** appends the rows up to the first exit. -/
theorem exec_forEach_turn {s : Script} {last : Option Attempt} (hs : s.AgreesWith last) :
    (exec true (.forEach (turn cfg) plan) s).2.csv =
      s.csv ++ rowsUntilExit cfg (withAttempts cfg last plan) := by
  induction plan generalizing s last with
  | nil => exact (List.append_nil _).symm
  | cons l plan ih =>
    obtain ⟨s', hturn, hcsv, hagrees⟩ := exec_turn cfg l hs
    rw [withAttempts, rowsUntilExit, Cmd.forEach, ← List.append_assoc, ← hcsv]
    by_cases hzero : (caseResult cfg (l, l.under cfg last)).1 = 0
    · rw [hzero, raise_zero] at hturn
      rw [if_pos hzero, exec_seq_of_done hturn, ih hagrees]
    · rw [raise_true hzero] at hturn
      rw [if_neg hzero, exec_seq_of_exited hturn, List.append_nil]

theorem newRows_eq (csv : List Row) (plan : List PlanLine) :
    newRows cfg csv plan = rowsUntilExit cfg (withAttempts cfg none plan) := by
  have hs : Script.AgreesWith { csv } none := ⟨rfl, fun a ha ↦ by cases ha⟩
  rw [newRows, exec_forEach_turn hs, List.drop_left]

/-! ### One row for every case -/

variable (cfg) in
/-- The plan has its rows: one for each case, `skipped` where the server of its transport and model
did not become ready, and with another status where it did. -/
def CoversPlan (plan : List PlanLine) (rows : List Row) : Prop :=
  (rows.map fun r ↦ (r.case, decide (r.status = .skipped))).Perm
    ((withAttempts cfg none plan).map fun p ↦ (p.1.case, !p.2.serverReady))

instance (plan : List PlanLine) (rows : List Row) : Decidable (CoversPlan cfg plan rows) :=
  inferInstanceAs (Decidable (List.Perm _ _))

variable (cfg) in
/-- A case under an attempt gets its row: the server that was started becomes ready, the client can
be run with the case, and it does not end with an exception. -/
def CaseMeets (p : PlanLine × Attempt) : Prop :=
  (p.2.up → p.2.ready ∧ caseHca cfg p.1 ≠ none ∧ 1 ≤ p.1.case.concurrency) ∧ ¬ p.1.client.raises

/-- A case that is run has a request that succeeds. -/
def HasSuccess (p : PlanLine × Attempt) : Prop :=
  p.2.up → ∃ i < p.1.case.concurrency.toNat, p.1.client.requestOk i

variable (cfg) in
/-- Every case gets its row, and every case but the last has a request that succeeds. -/
structure PlanMeets (plan : List PlanLine) : Prop where
  case : ∀ p ∈ withAttempts cfg none plan, CaseMeets cfg p
  success : ∀ p ∈ (withAttempts cfg none plan).dropLast, HasSuccess p

theorem skipArgs_case (cfg : Config) (case : Case) (reason : String) :
    (skipArgs cfg case reason).case = case ∧ (skipArgs cfg case reason).skipReason = reason := by
  rw [skipArgs]
  split
  · exact ⟨rfl, rfl⟩
  · exact ⟨rfl, rfl⟩
  · exact ⟨rfl, rfl⟩
  · exact ⟨rfl, rfl⟩
  · exact ⟨rfl, rfl⟩

theorem startFailed_ne_empty : startFailed ≠ "" := by decide

/-- When a case has a row. -/
theorem isSome_caseResult_iff (p : PlanLine × Attempt) : (caseResult cfg p).2.isSome ↔
    (p.2.up → caseHca cfg p.1 ≠ none ∧ 1 ≤ p.1.case.concurrency) ∧ ¬ p.1.client.raises := by
  rw [caseResult]
  by_cases hup : p.2.up
  · rw [if_pos hup, forall_prop_of_true hup]
    rcases caseHca cfg p.1 with _ | rdmaHca
    · simp
    · exact isSome_clientMain_iff.trans (by simp [caseArgs])
  · obtain ⟨-, hreason⟩ := skipArgs_case cfg p.1.case startFailed
    rw [if_neg hup, isSome_clientMain_iff, hreason]
    simp [hup, startFailed_ne_empty]

/-- The row of a case: it is the case's own, it is `skipped` where no server was started, and the
loop goes on after it where the case has a request that succeeds. -/
theorem caseResult_of_row {p : PlanLine × Attempt} {row : Row}
    (h : (caseResult cfg p).2 = some row) :
    (row.case, decide (row.status = .skipped)) = (p.1.case, !p.2.up) ∧
      ((caseResult cfg p).1 = 0 ↔ HasSuccess p) := by
  rw [caseResult] at h ⊢
  by_cases hup : p.2.up
  · rw [if_pos hup] at h ⊢
    rcases hhca : caseHca cfg p.1 with _ | rdmaHca
    · rw [hhca] at h
      cases h
    · rw [hhca] at h
      obtain ⟨hcase, hskip, hstatus⟩ := clientMain_of_row h
      have hrow : row = aggregate (caseArgs cfg p.1 rdmaHca) p.1.client :=
        eq_aggregate_of_row h rfl
      refine ⟨Prod.ext hcase ?_, hstatus.trans ?_⟩
      · rw [hup, Bool.not_true, decide_eq_false_iff_not, hskip, not_not]
        rfl
      · rw [hrow, aggregate_status_ne_failed_iff, HasSuccess, forall_prop_of_true hup]
        rfl
  · rw [if_neg hup] at h ⊢
    obtain ⟨hcase, hreason⟩ := skipArgs_case cfg p.1.case startFailed
    obtain ⟨hrow, hskip, hstatus⟩ := clientMain_of_row h
    rw [hreason] at hskip
    have hskipped := hskip.2 startFailed_ne_empty
    refine ⟨Prod.ext (hrow.trans hcase) ?_, iff_of_true (hstatus.2 ?_) fun h ↦ absurd h hup⟩
    · rw [hskipped, Bool.eq_false_iff.2 hup]
      rfl
    · rw [hskipped]
      exact fun heq ↦ by cases heq

/-- No case has two rows. -/
theorem length_rowsUntilExit_le (ps : List (PlanLine × Attempt)) :
    (rowsUntilExit cfg ps).length ≤ ps.length := by
  induction ps with
  | nil => exact le_rfl
  | cons p ps ih =>
    have hone : (caseResult cfg p).2.toList.length ≤ 1 := by
      rcases (caseResult cfg p).2 with _ | row <;> simp
    rw [rowsUntilExit, List.length_append, List.length_cons]
    split
    · omega
    · rw [List.length_nil]
      omega

/-- The rows up to the exit are all the rows exactly when no case but the last ends the loop and no
case is without a row. -/
theorem length_rowsUntilExit (ps : List (PlanLine × Attempt)) :
    (rowsUntilExit cfg ps).length = ps.length ↔
      (∀ p ∈ ps, (caseResult cfg p).2.isSome) ∧ ∀ p ∈ ps.dropLast, HasSuccess p := by
  induction ps with
  | nil => simp [rowsUntilExit]
  | cons p ps ih =>
    have hps : (rowsUntilExit cfg ps).length ≤ ps.length := length_rowsUntilExit_le ps
    rw [rowsUntilExit, List.length_append, List.length_cons,
      List.forall_mem_cons (p := fun p ↦ (caseResult cfg p).2.isSome = true)]
    rcases hrow : (caseResult cfg p).2 with _ | row
    -- without a row for this case there are too few, whatever follows
    · simp only [Option.toList_none, List.length_nil, Option.isSome_none, Bool.false_eq_true,
        false_and, iff_false]
      split
      · omega
      · rw [List.length_nil]
        omega
    · have hgo := (caseResult_of_row hrow).2
      rw [Option.toList_some, List.length_singleton, Option.isSome_some]
      rcases ps with _ | ⟨q, ps⟩
      · simp [rowsUntilExit]
      -- the loop goes on after a case that is not the last exactly when it succeeds
      · rw [List.dropLast_cons_cons, List.forall_mem_cons (p := HasSuccess), ← hgo]
        split
        next hzero =>
          rw [add_comm 1, Nat.add_right_cancel_iff]
          refine ih.trans ?_
          rw [List.forall_mem_cons (p := fun p ↦ (caseResult cfg p).2.isSome = true)]
          exact ⟨fun h ↦ ⟨⟨rfl, h.1⟩, hzero, h.2⟩, fun h ↦ ⟨h.1.2, h.2.2⟩⟩
        next hzero => exact iff_of_false (by simp) fun h ↦ hzero h.2.1

/-- With all the rows, they say which servers were started. -/
theorem map_rowsUntilExit {ps : List (PlanLine × Attempt)}
    (hsome : ∀ p ∈ ps, (caseResult cfg p).2.isSome) (hsuccess : ∀ p ∈ ps.dropLast, HasSuccess p) :
    (rowsUntilExit cfg ps).map (fun r ↦ (r.case, decide (r.status = .skipped))) =
      ps.map fun p ↦ (p.1.case, !p.2.up) := by
  induction ps with
  | nil => rfl
  | cons p ps ih =>
    obtain ⟨hp, hps⟩ := List.forall_mem_cons.1 hsome
    obtain ⟨row, hrow⟩ := Option.isSome_iff_exists.1 hp
    obtain ⟨hkey, hgo⟩ := caseResult_of_row hrow
    rw [rowsUntilExit, hrow, Option.toList_some, List.singleton_append, List.map_cons,
      List.map_cons, hkey]
    rcases ps with _ | ⟨q, ps⟩
    · simp [rowsUntilExit]
    · rw [List.dropLast_cons_cons, List.forall_mem_cons] at hsuccess
      rw [if_pos (hgo.2 hsuccess.1), ih hps hsuccess.2]

/-- Where fewer elements are counted than by a stronger condition only if it fails for some, equal
counts make the conditions agree. -/
theorem forall_of_countP_eq {α : Type*} {p q : α → Bool} {l : List α} (hpq : ∀ a, p a → q a)
    (h : l.countP p = l.countP q) : ∀ a ∈ l, q a → p a := by
  induction l with
  | nil => exact fun a ha ↦ absurd ha List.not_mem_nil
  | cons b l ih =>
    have hle : l.countP p ≤ l.countP q := List.countP_mono_left fun a _ ↦ hpq a
    rw [List.countP_cons, List.countP_cons] at h
    have hb := hpq b
    rw [List.forall_mem_cons]
    by_cases hpb : p b
    · rw [if_pos hpb, if_pos (hb hpb)] at h
      exact ⟨fun _ ↦ hpb, ih (by omega)⟩
    · rw [if_neg hpb] at h
      by_cases hqb : q b
      · rw [if_pos hqb] at h
        omega
      · rw [if_neg hqb] at h
        exact ⟨fun hq ↦ absurd hq hqb, ih (by omega)⟩

/-- Where the skipped cases are those without a ready server, the started servers became ready. -/
theorem ready_of_perm {ps : List (PlanLine × Attempt)}
    (h : (ps.map fun p ↦ (p.1.case, !p.2.up)).Perm (ps.map fun p ↦ (p.1.case, !p.2.serverReady))) :
    ∀ p ∈ ps, p.2.up → p.2.ready := by
  have hcount := h.countP_eq Prod.snd
  rw [List.countP_map, List.countP_map] at hcount
  intro p hp hup
  by_contra hready
  have hskipped := forall_of_countP_eq (fun q hq ↦ ?_) hcount p hp ?_
  · simp [hup] at hskipped
  · simp only [Function.comp_apply, Bool.not_eq_true'] at hq ⊢
    rw [Attempt.serverReady, hq, Bool.false_and]
  · simp only [Function.comp_apply, Attempt.serverReady]
    rw [Bool.eq_false_iff.2 hready, Bool.and_false]
    rfl

/-- **When every case of the plan gets its row**: exactly when every server that is started becomes
ready, every client has a case that it can run and raises nothing, and every case but the last has
a request that succeeds. -/
theorem coversPlan_iff (cfg : Config) (csv : List Row) (plan : List PlanLine) :
    CoversPlan cfg plan (newRows cfg csv plan) ↔ PlanMeets cfg plan := by
  rw [CoversPlan, newRows_eq]
  generalize hps : withAttempts cfg none plan = ps
  constructor
  · intro hperm
    -- every line has its row, so none exits and each produces one
    have hlength := hperm.length_eq
    rw [List.length_map, List.length_map] at hlength
    obtain ⟨hsome, hsuccess⟩ := (length_rowsUntilExit ps).1 hlength
    rw [map_rowsUntilExit hsome hsuccess] at hperm
    have hready := ready_of_perm hperm
    refine ⟨?_, hps ▸ hsuccess⟩
    rw [hps]
    intro p hp
    obtain ⟨hrun, hraises⟩ := (isSome_caseResult_iff p).1 (hsome p hp)
    exact ⟨fun hup ↦ ⟨hready p hp hup, hrun hup⟩, hraises⟩
  · rintro ⟨hcase, hsuccess⟩
    rw [hps] at hcase hsuccess
    have hsome : ∀ p ∈ ps, (caseResult cfg p).2.isSome := fun p hp ↦
      (isSome_caseResult_iff p).2 ⟨fun hup ↦ ((hcase p hp).1 hup).2, (hcase p hp).2⟩
    rw [map_rowsUntilExit hsome hsuccess]
    refine List.Perm.of_eq (List.map_congr_left fun p hp ↦ ?_)
    have hready := (hcase p hp).1
    rw [Attempt.serverReady]
    rcases hup : p.2.up with _ | _
    · rfl
    · rw [(hready hup).1]
      rfl

/-- A server that exits before its startup is complete. -/
def exitingServer : StartOutcome where
  status _ := 0
  stop _ := 0
  stopFailed _ := 0
  ipv4 _ := ""
  remoteIpv4 _ := ""
  logIsEmpty := false
  polls _ := { complete := false, alive := false }

/-- A case for a server that does not answer. -/
def deadLine (concurrency : ℤ) : PlanLine where
  case := { transport := "solo", model := "Qwen/Qwen3-0.6B", concurrency, maxTokens := 64 }
  start := exitingServer
  localHcas := []
  remoteHcas := []
  client := { requestOk := fun _ ↦ false }

/-- The server of two cases exits: the first one gets a row that says `failed`, and the second one
gets none. -/
theorem not_coversPlan_exitingServer :
    ¬ CoversPlan {} [deadLine 1, deadLine 4] (newRows {} [] [deadLine 1, deadLine 4]) := by
  decide

example : (newRows {} [] [deadLine 1, deadLine 4]).map (fun r ↦ (r.case.concurrency, r.status)) =
    [(1, .failed)] := by decide

end Bench
