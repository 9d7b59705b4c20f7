import Pmd.Daemon.Handles

/-!
# Discovery plugins and the forwarding task

A plugin reports the address of a peer the first time it hears of it: `broadcast` by the
node id of the beacon, `azure-tag` by the private IP. Its set of known peers is never
cleared. Addresses go through a channel of 64 to the forwarding task, which queues those
that are neither connected nor queued already.
-/
namespace Pmd
open Foundation

variable {P : Platform}

structure Beacon (P : Platform) where
  nodeId : String
  listenAddr : P.Addr

/-- The port `azure-tag` expects peers on. -/
def DEFAULT_PORT : UInt16 := 4369

inductive PluginKind where
  | broadcast
  /-- With the private IP of the local machine. -/
  | azureTag (localIp : String)
  deriving DecidableEq

/-- The state of a plugin task: its set of known peers, the address it waits to put on the
channel, and for `azure-tag` the IPs of the current poll that are still to be looked at. -/
structure Plugin (P : Platform) where
  kind : PluginKind
  knownPeers : List String
  sending : Option P.Addr
  ips : List String

namespace Plugin

def new (kind : PluginKind) : Plugin P := ⟨kind, [], none, []⟩

/-- `if known_peers.insert(key)` then the address is sent. -/
def offer (plugin : Plugin P) (key : String) (addr : Option P.Addr) : Plugin P :=
  if key ∈ plugin.knownPeers then plugin
  else { plugin with knownPeers := key :: plugin.knownPeers, sending := addr }

/-- The `broadcast` plugin receives a well-formed beacon. -/
def recvBeacon (localId : String) (plugin : Plugin P) (remoteBeacon : Beacon P) : Plugin P :=
  if remoteBeacon.nodeId = localId then plugin
  else plugin.offer remoteBeacon.nodeId (some remoteBeacon.listenAddr)

/-- The address of a tagged machine; an IP may fail to make one. -/
def taggedAddr (P : Platform) (ip : String) : Option P.Addr :=
  P.parseAddr (ip ++ ":" ++ toString DEFAULT_PORT.toNat)

/-- The `azure-tag` plugin looks at one IP of a poll. -/
def reportIp (localIp : String) (plugin : Plugin P) (ip : String) : Plugin P :=
  if ip = localIp then plugin else plugin.offer ip (taggedAddr P ip)

end Plugin

/-- A daemon with its discovery plugins, the channel they share, and the address the
forwarding task has taken from it and waits for the lock with. -/
structure Discovering (P : Platform) where
  daemon : Daemon P
  localId : String
  plugins : List (Plugin P)
  channel : List P.Addr
  forwarding : Option P.Addr

inductive DiscoveryAct (P : Platform) where
  | daemon (a : Act P)
  | beacon (i : ℕ) (remoteBeacon : Beacon P)
  /-- A poll of `azure-tag` has returned these IPs. -/
  | poll (i : ℕ) (ips : List String)
  | reportIp (i : ℕ)
  | send (i : ℕ)
  /-- The forwarding task takes an address from the channel. -/
  | recv
  /-- The forwarding task has the lock. -/
  | forward

namespace Discovering
variable {cfg : Config} {cookie : Bytes}

def setPlugin (s : Discovering P) (i : ℕ) (plugin : Plugin P) : Discovering P :=
  { s with plugins := s.plugins.set i plugin }

/-- While an address waits for a place in the channel its plugin does nothing else. A
plugin that the shutdown stops takes no more steps. -/
def step (cfg : Config) (cookie : Bytes) (s : Discovering P) :
    DiscoveryAct P → Option (Discovering P)
  | .daemon (.discovered _) => none
  | .daemon a => (s.daemon.step cfg cookie a).map fun o => { s with daemon := o.1 }
  | .beacon i remoteBeacon => do
    let plugin ← s.plugins[i]?
    match plugin.kind, plugin.sending with
    | .broadcast, none => some (s.setPlugin i (plugin.recvBeacon s.localId remoteBeacon))
    | _, _ => none
  | .poll i ips => do
    let plugin ← s.plugins[i]?
    match plugin.kind, plugin.sending, plugin.ips with
    | .azureTag _, none, [] => some (s.setPlugin i { plugin with ips := ips })
    | _, _, _ => none
  | .reportIp i => do
    let plugin ← s.plugins[i]?
    match plugin.kind, plugin.sending, plugin.ips with
    | .azureTag localIp, none, ip :: ips =>
      some (s.setPlugin i (Plugin.reportIp localIp { plugin with ips := ips } ip))
    | _, _, _ => none
  | .send i => do
    let plugin ← s.plugins[i]?
    let addr ← plugin.sending
    if s.channel.length < 64 then
      some { s.setPlugin i { plugin with sending := none } with channel := s.channel ++ [addr] }
    else none
  | .recv =>
    match s.forwarding, s.channel with
    | none, addr :: rest => some { s with channel := rest, forwarding := some addr }
    | _, _ => none
  | .forward => do
    let addr ← s.forwarding
    (s.daemon.step cfg cookie (.discovered addr)).map fun o =>
      { s with daemon := o.1, forwarding := none }

def system (P : Platform) (cfg : Config) (cookie : Bytes) :
    System (Discovering P) (DiscoveryAct P) where
  init s := (Daemon.system P cfg cookie).init s.daemon ∧
    s.localId = s.daemon.state.membership.nodeId ∧ (∃ kinds : List PluginKind,
      s.plugins = kinds.map .new) ∧ s.channel = [] ∧ s.forwarding = none
  step := step cfg cookie

/-- Some entry of `peers` has the address. -/
def Connected (s : Discovering P) (addr : P.Addr) : Prop :=
  ∃ e ∈ s.daemon.state.peers.entries, e.2.id.addr = addr

def Pending (s : Discovering P) (addr : P.Addr) : Prop :=
  P.printAddr addr ∈ s.daemon.state.pendingJoins

/-- The address is on its way from plugin `i`: the forwarding task has not dealt with it. -/
def InFlight (s : Discovering P) (i : ℕ) (addr : P.Addr) : Prop :=
  (∃ plugin, s.plugins[i]? = some plugin ∧ plugin.sending = some addr) ∨ addr ∈ s.channel ∨
    s.forwarding = some addr

/-- The action has plugin `i` receive a report of a node other than the local one: under
this key, with this address. -/
inductive Receives (s : Discovering P) (i : ℕ) : DiscoveryAct P → String → P.Addr → Prop
  | beacon {plugin : Plugin P} {b : Beacon P} (hplugin : s.plugins[i]? = some plugin)
      (hkind : plugin.kind = .broadcast) (hne : b.nodeId ≠ s.localId) :
      Receives s i (.beacon i b) b.nodeId b.listenAddr
  | ip {plugin : Plugin P} {localIp ip : String} {ips : List String} {addr : P.Addr}
      (hplugin : s.plugins[i]? = some plugin) (hkind : plugin.kind = .azureTag localIp)
      (hips : plugin.ips = ip :: ips) (hne : ip ≠ localIp)
      (haddr : Plugin.taggedAddr P ip = some addr) : Receives s i (.reportIp i) ip addr

/-- The plugin has had a report under this key before. -/
def Known (s : Discovering P) (i : ℕ) (key : String) : Prop :=
  ∃ plugin, s.plugins[i]? = some plugin ∧ key ∈ plugin.knownPeers

/-- `process_tick` drains the address for dialling. -/
def Drains (addr : P.Addr) (s : Discovering P) (a : DiscoveryAct P) : Prop :=
  a = .daemon .drain ∧ s.Pending addr

/-- The forwarding task looks at the address while a peer has it. -/
def ForwardsConnected (addr : P.Addr) (s : Discovering P) (a : DiscoveryAct P) : Prop :=
  a = .forward ∧ s.forwarding = some addr ∧ s.Connected addr

end Discovering

/-! ## The queue of addresses to join -/

namespace DaemonState

theorem forwardDiscovered_of_taken {st : DaemonState P} {addr : P.Addr}
    (h : (∃ e ∈ st.peers.entries, e.2.id.addr = addr) ∨ P.printAddr addr ∈ st.pendingJoins) :
    st.forwardDiscovered addr = st := by
  have htaken : ((st.peers.entries.any fun e => e.2.id.addr = addr) ||
      st.pendingJoins.contains (P.printAddr addr)) = true := by
    rw [Bool.or_eq_true, List.any_eq_true, List.contains_iff_mem]
    simpa only [decide_eq_true_iff] using h
  rw [forwardDiscovered, if_pos htaken]

/-- The forwarding task drops an address only if a peer has it. -/
theorem mem_forwardDiscovered (st : DaemonState P) (addr : P.Addr) :
    P.printAddr addr ∈ (st.forwardDiscovered addr).pendingJoins ∨
      ∃ e ∈ st.peers.entries, e.2.id.addr = addr := by
  by_cases h : (∃ e ∈ st.peers.entries, e.2.id.addr = addr) ∨
      P.printAddr addr ∈ st.pendingJoins
  · rw [forwardDiscovered_of_taken h]
    exact h.symm
  · left
    rw [forwardDiscovered]
    split
    · rename_i htaken
      rw [Bool.or_eq_true, List.any_eq_true, List.contains_iff_mem] at htaken
      simp only [decide_eq_true_iff] at htaken
      exact absurd htaken h
    · simp

theorem prefix_forwardDiscovered (st : DaemonState P) (addr : P.Addr) :
    st.pendingJoins <+: (st.forwardDiscovered addr).pendingJoins := by
  rw [forwardDiscovered]
  split
  · exact List.prefix_rfl
  · exact List.prefix_append _ _

theorem prefix_meshExpandRandomPeer (st : DaemonState P) (choice : ℕ) :
    st.pendingJoins <+: (st.meshExpandRandomPeer choice).pendingJoins := by
  simp only [meshExpandRandomPeer]
  split
  · exact List.prefix_rfl
  · split
    · split
      · exact List.prefix_rfl
      · exact List.prefix_append _ _
    · exact List.prefix_rfl

theorem prefix_dispatchRequest (st : DaemonState P) (r : ControlRequest) :
    st.pendingJoins <+: (st.dispatchRequest r).pendingJoins := by
  cases r with
  | join addr => exact List.prefix_append _ _
  | _ => exact List.prefix_rfl

theorem modifyPeer_pendingJoins (st : DaemonState P) (key : String)
    (f : PeerHandle P → PeerHandle P) :
    (st.modifyPeer key f).pendingJoins = st.pendingJoins := by
  rw [modifyPeer]
  split <;> rfl

end DaemonState

namespace Daemon
variable {cfg : Config} {cookie : Bytes} {d d' : Daemon P} {a : Act P}
  {sent : Option (TaskId × Message P)}

/-- Sessions do not touch the queue. -/
theorem sessionMove_pendingJoins {t : TaskId} {st : DaemonState P} {s : Session P}
    {e : TaskEvent P} {o : Outcome P} (h : SessionMove cfg cookie t st s e o) :
    o.state.pendingJoins = st.pendingJoins := by
  cases h with
  | recorded => exact DaemonState.modifyPeer_pendingJoins _ _ _
  | merged _ hm =>
    obtain ⟨δ, changes, -, rfl⟩ := DaemonState.mergeSync_eq_some hm
    exact DaemonState.modifyPeer_pendingJoins _ _ _
  | _ => rfl

/-- Only `process_tick` takes addresses out of the queue. -/
theorem pendingJoins_grow (h : d.step cfg cookie a = some (d', sent)) (ha : a ≠ .drain) :
    d.state.pendingJoins <+: d'.state.pendingJoins := by
  by_cases htask : ∃ t e, a = .task t e
  · obtain ⟨t, e, rfl⟩ := htask
    obtain ⟨s, o, -, hm, -, rfl, -⟩ := taskStep_eq_some h
    rw [sessionMove_pendingJoins hm]
  · obtain ⟨h, -⟩ := mainStep_eq_some (fun t e he => htask ⟨t, e, he⟩) h
    cases a with
    | request r =>
      cases h
      exact DaemonState.prefix_dispatchRequest _ _
    | discovered addr =>
      cases h
      exact DaemonState.prefix_forwardDiscovered _ _
    | meshTick choice =>
      obtain ⟨-, h⟩ := Option.ite_none_right_eq_some.mp h
      cases h
      exact DaemonState.prefix_meshExpandRandomPeer _ _
    | drain => exact absurd rfl ha
    | task t e => exact absurd ⟨t, e, rfl⟩ htask
    | gossipTick choice =>
      obtain ⟨-, h⟩ := Option.ite_none_right_eq_some.mp h
      split at h <;> cases h <;> exact List.prefix_rfl
    | leave =>
      rw [mainStep] at h
      split at h <;> cases h <;> exact List.prefix_rfl
    | gossipSend =>
      rw [mainStep] at h
      split at h <;> cases h
      exact List.prefix_rfl
    | accept =>
      cases h
      exact List.prefix_rfl
    | _ =>
      obtain ⟨-, h⟩ := Option.ite_none_right_eq_some.mp h
      cases h
      exact List.prefix_rfl

end Daemon

/-! ## From a report to the queue -/

namespace Discovering
variable {cfg : Config} {cookie : Bytes} {s s' : Discovering P} {a : DiscoveryAct P}

/-- Every successful step, by what it changes. -/
inductive Moves (cfg : Config) (cookie : Bytes) (s : Discovering P) :
    DiscoveryAct P → Discovering P → Prop
  | daemon {a : Act P} {d : Daemon P} {sent : Option (TaskId × Message P)}
      (hd : s.daemon.step cfg cookie a = some (d, sent)) :
      Moves cfg cookie s (.daemon a) { s with daemon := d }
  | plugin {a : DiscoveryAct P} {j : ℕ} {plugin plugin' : Plugin P}
      (hplugin : s.plugins[j]? = some plugin) (hidle : plugin.sending = none) :
      Moves cfg cookie s a (s.setPlugin j plugin')
  | send {j : ℕ} {plugin : Plugin P} {addr : P.Addr} (hplugin : s.plugins[j]? = some plugin)
      (hsending : plugin.sending = some addr) :
      Moves cfg cookie s (.send j)
        { s.setPlugin j { plugin with sending := none } with channel := s.channel ++ [addr] }
  | recv {addr : P.Addr} {rest : List P.Addr} (hidle : s.forwarding = none)
      (hchannel : s.channel = addr :: rest) :
      Moves cfg cookie s .recv { s with channel := rest, forwarding := some addr }
  | forward {addr : P.Addr} (hforwarding : s.forwarding = some addr) :
      Moves cfg cookie s .forward
        { s with
          daemon := { s.daemon with state := s.daemon.state.forwardDiscovered addr }
          forwarding := none }

theorem step_cases (h : s.step cfg cookie a = some s') : Moves cfg cookie s a s' := by
  cases a with
  | daemon a =>
    rw [step.eq_def] at h
    cases a with
    | discovered addr => cases h
    | _ =>
      obtain ⟨⟨d, sent⟩, hd, rfl⟩ := Option.map_eq_some_iff.mp h
      exact .daemon hd
  | beacon j b =>
    obtain ⟨plugin, hplugin, h⟩ := Option.bind_eq_some_iff.mp h
    split at h
    · rename_i hkind hidle
      cases h
      exact .plugin hplugin hidle
    · cases h
  | poll j ips =>
    obtain ⟨plugin, hplugin, h⟩ := Option.bind_eq_some_iff.mp h
    split at h
    · rename_i hkind hidle hips
      cases h
      exact .plugin hplugin hidle
    · cases h
  | reportIp j =>
    obtain ⟨plugin, hplugin, h⟩ := Option.bind_eq_some_iff.mp h
    split at h
    · rename_i hkind hidle hips
      cases h
      exact .plugin hplugin hidle
    · cases h
  | send j =>
    obtain ⟨plugin, hplugin, h⟩ := Option.bind_eq_some_iff.mp h
    obtain ⟨addr, hsending, h⟩ := Option.bind_eq_some_iff.mp h
    obtain ⟨-, h⟩ := Option.ite_none_right_eq_some.mp h
    cases h
    exact .send hplugin hsending
  | recv =>
    rw [step.eq_def] at h
    dsimp only at h
    split at h
    · rename_i hidle hchannel
      cases h
      exact .recv hidle hchannel
    · cases h
  | forward =>
    obtain ⟨addr, hforwarding, h⟩ := Option.bind_eq_some_iff.mp h
    obtain ⟨o, ho, rfl⟩ := Option.map_eq_some_iff.mp h
    cases ho
    exact .forward hforwarding

theorem pending_of_grows {addr : P.Addr} (h : s.Pending addr)
    (hp : s.daemon.state.pendingJoins <+: s'.daemon.state.pendingJoins) : s'.Pending addr :=
  hp.subset h

/-- An address that is on its way or queued stays so, until it is drained for dialling or
the forwarding task finds a peer that has it. -/
theorem inFlight_or_pending_step {i : ℕ} {addr : P.Addr}
    (hq : s.InFlight i addr ∨ s.Pending addr) (h : s.step cfg cookie a = some s') :
    (s'.InFlight i addr ∨ s'.Pending addr) ∨
      (Drains addr s a ∨ ForwardsConnected addr s a) := by
  cases step_cases h with
  | @daemon a d sent hd =>
    rcases hq with hflight | hpending
    · exact .inl (.inl hflight)
    · by_cases ha : a = .drain
      · subst ha
        exact .inr (.inl ⟨rfl, hpending⟩)
      · exact .inl (.inr (pending_of_grows hpending (Daemon.pendingJoins_grow hd ha)))
  | @plugin a j plugin plugin' hplugin hidle =>
    refine .inl (hq.imp_left fun hflight => hflight.imp_left ?_)
    rintro ⟨waiting, hwaiting, hsending⟩
    have hne : j ≠ i := by
      rintro rfl
      rw [hplugin, Option.some.injEq] at hwaiting
      rw [← hwaiting, hidle] at hsending
      cases hsending
    refine ⟨waiting, ?_, hsending⟩
    rw [setPlugin, List.getElem?_set_ne hne, hwaiting]
  | @send j plugin addr' hplugin hsending' =>
    refine .inl (hq.imp_left fun hflight => ?_)
    rcases hflight with ⟨waiting, hwaiting, hsending⟩ | hchannel | hforwarding
    · by_cases hj : j = i
      · subst hj
        rw [hplugin, Option.some.injEq] at hwaiting
        rw [← hwaiting, hsending', Option.some.injEq] at hsending
        exact .inr (.inl (hsending ▸ List.mem_append_right _ (List.mem_singleton_self _)))
      · refine .inl ⟨waiting, ?_, hsending⟩
        rw [setPlugin, List.getElem?_set_ne hj, hwaiting]
    · exact .inr (.inl (List.mem_append_left _ hchannel))
    · exact .inr (.inr hforwarding)
  | @recv addr' rest hidle hchannel =>
    refine .inl (hq.imp_left fun hflight => ?_)
    rcases hflight with hsending | hmem | hforwarding
    · exact .inl hsending
    · rw [hchannel] at hmem
      rcases List.mem_cons.mp hmem with rfl | hmem
      · exact .inr (.inr rfl)
      · exact .inr (.inl hmem)
    · rw [hidle] at hforwarding
      cases hforwarding
  | @forward addr' hforwarding' =>
    have hprefix := s.daemon.state.prefix_forwardDiscovered addr'
    rcases hq with (hsending | hmem | hforwarding) | hpending
    · exact .inl (.inl (.inl hsending))
    · exact .inl (.inl (.inr (.inl hmem)))
    · rw [hforwarding', Option.some.injEq] at hforwarding
      subst hforwarding
      rcases s.daemon.state.mem_forwardDiscovered addr' with hnew | hconnected
      · exact .inl (.inr hnew)
      · exact .inr (.inr ⟨rfl, hforwarding', hconnected⟩)
    · exact .inl (.inr (pending_of_grows hpending hprefix))

/-- On a report, the plugin offers the key to its own state, with nothing else waiting. -/
theorem step_offers {i : ℕ} {key : String} {addr : P.Addr} (hrec : s.Receives i a key addr)
    (h : s.step cfg cookie a = some s') : ∃ plugin plugin₁ : Plugin P,
      s.plugins[i]? = some plugin ∧ plugin₁.knownPeers = plugin.knownPeers ∧
      plugin₁.sending = none ∧ s' = s.setPlugin i (plugin₁.offer key (some addr)) := by
  cases hrec with
  | @beacon plugin b hplugin hkind hne =>
    obtain ⟨plugin', hplugin', h⟩ := Option.bind_eq_some_iff.mp h
    rw [hplugin, Option.some.injEq] at hplugin'
    subst hplugin'
    split at h
    · rename_i hidle
      cases h
      refine ⟨plugin, plugin, hplugin, rfl, hidle, ?_⟩
      rw [Plugin.recvBeacon, if_neg hne]
    · cases h
  | @ip plugin localIp ip ips addr hplugin hkind hips hne haddr =>
    obtain ⟨plugin', hplugin', h⟩ := Option.bind_eq_some_iff.mp h
    rw [hplugin, Option.some.injEq] at hplugin'
    subst hplugin'
    split at h
    · rename_i hkind' hidle hips'
      rw [hkind, PluginKind.azureTag.injEq] at hkind'
      rw [hips, List.cons.injEq] at hips'
      obtain ⟨rfl, rfl⟩ := hips'
      subst hkind'
      cases h
      refine ⟨plugin, { plugin with ips := ips }, hplugin, rfl, hidle, ?_⟩
      rw [Plugin.reportIp, if_neg hne, haddr]
    · cases h

/-- A report is put on its way exactly if its key is new to the plugin. -/
theorem step_receives {i : ℕ} {key : String} {addr : P.Addr} (hrec : s.Receives i a key addr)
    (h : s.step cfg cookie a = some s') :
    (s.Known i key → s'.daemon = s.daemon ∧ s'.channel = s.channel ∧
      s'.forwarding = s.forwarding ∧
      ∀ plugin, s'.plugins[i]? = some plugin → plugin.sending = none) ∧
    (¬ s.Known i key → s'.InFlight i addr) := by
  obtain ⟨plugin, plugin₁, hplugin, hknown, hidle, rfl⟩ := step_offers hrec h
  have hlt := (List.getElem?_eq_some_iff.mp hplugin).1
  refine ⟨fun hkey => ⟨rfl, rfl, rfl, fun q hq => ?_⟩, fun hnew => .inl ⟨_,
    List.getElem?_set_self hlt, ?_⟩⟩
  · obtain ⟨p, hp, hkey⟩ := hkey
    rw [hplugin, Option.some.injEq] at hp
    subst hp
    rw [setPlugin, List.getElem?_set_self hlt, Option.some.injEq] at hq
    rw [← hq, Plugin.offer, if_pos (hknown ▸ hkey)]
    exact hidle
  · rw [Plugin.offer, if_neg (fun hkey => hnew ⟨plugin, hplugin, hknown ▸ hkey⟩)]

/-- The first report of a node is on its way to the queue. Once nothing of it is on its
way, its address is queued, or it has been drained for dialling since, or the forwarding
task found a peer that has it. Later reports of the node are ignored, and the forwarding
task adds nothing for an address that is connected or queued. -/
theorem firstReport_recovers {i : ℕ} {key : String} {addr : P.Addr}
    (hrec : s.Receives i a key addr) (hstep : (system P cfg cookie).step s a = some s') :
    (¬ s.Known i key → ∀ as t, (system P cfg cookie).run s' as = some t → ¬ t.InFlight i addr →
      t.Pending addr ∨ (system P cfg cookie).Happens
        (fun u b => Drains addr u b ∨ ForwardsConnected addr u b) s' as) ∧
    (s.Known i key → s'.daemon = s.daemon ∧ s'.channel = s.channel ∧
      s'.forwarding = s.forwarding ∧
      ∀ plugin, s'.plugins[i]? = some plugin → plugin.sending = none) ∧
    ∀ u u', u.forwarding = some addr → u.Connected addr ∨ u.Pending addr →
      (system P cfg cookie).step u .forward = some u' → u'.daemon = u.daemon := by
  obtain ⟨hknown, hnew⟩ := step_receives hrec hstep
  refine ⟨fun hkey as t hrun hprocessed => ?_, hknown, fun u u' htask htaken hforward => ?_⟩
  · rcases System.run_keeps_or_happens (Q := fun u => u.InFlight i addr ∨ u.Pending addr)
      (fun _ _ _ hq hs => inFlight_or_pending_step hq hs) hrun (.inl (hnew hkey)) with hq | he
    · exact .inl (hq.resolve_left hprocessed)
    · exact .inr he
  · have hforward : u.step cfg cookie .forward = some u' := hforward
    cases step_cases hforward with
    | plugin _ _ => rfl
    | @forward addr' hforwarding =>
      rw [hforwarding, Option.some.injEq] at htask
      subst htask
      dsimp only
      rw [DaemonState.forwardDiscovered_of_taken htaken]

section
open Reference

/-- The daemon `a` with the `broadcast` plugin. -/
def listening : Option (Discovering platform) :=
  Reference.daemon.map fun d => ⟨d, "a", [.new .broadcast], [], none⟩

abbrev discoverers : System (Discovering platform) (DiscoveryAct platform) :=
  system platform config Reference.cookie

def beaconOfB : Beacon platform := ⟨"b", addr 2⟩

/-- Nothing is on its way. -/
def sentAll (s : Discovering platform) : Bool :=
  (s.channel.isEmpty && s.forwarding.isNone) &&
    (s.plugins[0]?).any fun plugin => plugin.sending.isNone

/-- The `broadcast` plugin of `a` listens, with these known peers; no address is connected
or queued. -/
def alone (known : List String) (s : Discovering platform) : Bool :=
  s.localId == "a" && s.daemon.state.peers.entries.isEmpty &&
    s.daemon.state.pendingJoins.isEmpty && (s.plugins[0]?).any fun plugin =>
      plugin.kind = .broadcast ∧ plugin.knownPeers = known

theorem not_inFlight_of_sentAll {s : Discovering platform} (h : sentAll s = true)
    {addr : SocketAddrV4} : ¬ s.InFlight 0 addr := by
  simp only [sentAll, Bool.and_eq_true, List.isEmpty_iff, Option.isNone_iff_eq_none] at h
  obtain ⟨⟨hchannel, hforwarding⟩, hplugin⟩ := h
  obtain ⟨plugin, hplugin, hidle⟩ := (Option.any_eq_true _ _).mp hplugin
  rintro (⟨plugin', hplugin', hsending⟩ | hmem | hheld)
  · rw [hplugin, Option.some.injEq] at hplugin'
    rw [← hplugin'] at hsending
    rw [hsending] at hidle
    cases hidle
  · rw [hchannel] at hmem
    cases hmem
  · rw [hforwarding] at hheld
    cases hheld

/-- What `alone` says of a beacon of `b`. -/
theorem alone_receives {known : List String} {s : Discovering platform}
    (h : alone known s = true) :
    s.Receives 0 (.beacon 0 beaconOfB) "b" (addr 2) ∧ ¬ s.Connected (addr 2) ∧
      ¬ s.Pending (addr 2) ∧ (s.Known 0 "b" → "b" ∈ known) := by
  simp only [alone, Bool.and_eq_true, beq_iff_eq, List.isEmpty_iff] at h
  obtain ⟨⟨⟨hlocal, hpeers⟩, hjoins⟩, hplugin⟩ := h
  obtain ⟨plugin, hplugin, hkind⟩ := (Option.any_eq_true _ _).mp hplugin
  obtain ⟨hkind, hknown⟩ := of_decide_eq_true hkind
  have hne : beaconOfB.nodeId ≠ s.localId := by
    rw [hlocal]
    decide
  refine ⟨.beacon hplugin hkind hne, ?_, fun hpending => ?_, ?_⟩
  · rintro ⟨e, he, -⟩
    rw [hpeers] at he
    cases he
  · have hmem : platform.printAddr (addr 2) ∈ s.daemon.state.pendingJoins := hpending
    rw [hjoins] at hmem
    cases hmem
  · rintro ⟨plugin', hplugin', hkey⟩
    rw [hplugin, Option.some.injEq] at hplugin'
    rwa [← hplugin', hknown] at hkey

/-- The runs below: `before`, then a beacon of `b` while alone, then `after`, at the end
of which nothing is on its way. -/
def heardAlone (known : List String) (before after : List (DiscoveryAct platform)) :
    Option (Discovering platform) :=
  (listening.bind fun s => discoverers.run s before).bind fun s =>
    if alone known s then (discoverers.step s (.beacon 0 beaconOfB)).bind fun s' =>
      discoverers.run s' after else none

theorem exists_of_heardAlone {known : List String} {before after : List (DiscoveryAct platform)}
    {p : Discovering platform → Bool} (h : (heardAlone known before after).any p = true) :
    ∃ s s' t, discoverers.Reach System.any s ∧ alone known s = true ∧
      discoverers.step s (.beacon 0 beaconOfB) = some s' ∧ discoverers.run s' after = some t ∧
        p t = true := by
  obtain ⟨t, ht, hp⟩ := (Option.any_eq_true _ _).mp h
  obtain ⟨s, hs, ht⟩ := Option.bind_eq_some_iff.mp ht
  obtain ⟨s₀, hs₀, hrun⟩ := Option.bind_eq_some_iff.mp hs
  obtain ⟨halone, ht⟩ := Option.ite_none_right_eq_some.mp ht
  obtain ⟨s', hs', ht⟩ := Option.bind_eq_some_iff.mp ht
  refine ⟨s, s', t, ?_, halone, hs', ht, hp⟩
  obtain ⟨d, hd, rfl⟩ := Option.map_eq_some_iff.mp hs₀
  refine ⟨_, ⟨daemon_init d hd, ?_, ⟨[.broadcast], rfl⟩, rfl, rfl⟩,
    .of_run hrun (System.meets_any _ _)⟩
  cases hd
  rfl

/-- The first beacon of `b` is received, sent on and forwarded. -/
theorem firstReport_recovers_beacon : ∃ s s' t : Discovering platform,
    discoverers.Reach System.any s ∧ discoverers.step s (.beacon 0 beaconOfB) = some s' ∧
      discoverers.run s' [.send 0, .recv, .forward] = some t ∧ (t.Pending (addr 2) ∨
        discoverers.Happens (fun u b => Drains (addr 2) u b ∨ ForwardsConnected (addr 2) u b) s'
          [.send 0, .recv, .forward]) := by
  have heval : (heardAlone [] [] [.send 0, .recv, .forward]).any sentAll = true := by
    decide +kernel
  obtain ⟨s, s', t, hs, halone, hs', ht, hsent⟩ := exists_of_heardAlone heval
  obtain ⟨hrec, -, -, hknown⟩ := alone_receives halone
  exact ⟨s, s', t, hs, hs', ht, (firstReport_recovers hrec hs').1
    (fun hkey => List.not_mem_nil (hknown hkey)) _ t ht (not_inFlight_of_sentAll hsent)⟩

end

/-- What recovery of a lost peer asks for: a report of a node that is neither connected
nor queued gets its address queued, whatever was reported before, if `C` holds. -/
def RecoversIf (P : Platform) (cfg : Config) (cookie : Bytes)
    (C : Discovering P → ℕ → String → Prop) : Prop :=
  ∀ (s s' t : Discovering P) (i : ℕ) (a : DiscoveryAct P) (key : String) (addr : P.Addr)
    (as : List (DiscoveryAct P)), (system P cfg cookie).Reach System.any s → C s i key →
    s.Receives i a key addr → ¬ s.Connected addr → ¬ s.Pending addr →
    (system P cfg cookie).step s a = some s' → (system P cfg cookie).run s' as = some t →
    ¬ t.InFlight i addr → t.Pending addr ∨ (system P cfg cookie).Happens (Drains addr) s' as

section
open Reference

/-- The address of `b` is reported, queued, drained and dialled; the dial fails. -/
def dialFails : List (DiscoveryAct platform) :=
  [.beacon 0 beaconOfB, .send 0, .recv, .forward, .daemon .tick, .daemon .drain, .daemon .leave,
    .daemon (.task 0 .connectFailed)]

/-- The first beacon of `b` is received, but `b` connects before it is forwarded. -/
def connectsMeanwhile : List (DiscoveryAct platform) :=
  (inboundRegisters 0).map .daemon ++ [.send 0, .recv, .forward]

/-- Nothing is on its way and nothing is queued. -/
def quiet (s : Discovering platform) : Bool := sentAll s && s.daemon.state.pendingJoins.isEmpty

/-- A run in which a beacon of `b` is received while alone, and all is quiet at the end
without a drain. -/
theorem not_recoversIf {C : Discovering platform → ℕ → String → Prop} (known : List String)
    (before after : List (DiscoveryAct platform))
    (hC : ∀ s, (s.Known 0 "b" → "b" ∈ known) → C s 0 "b") (hdrain : .daemon .drain ∉ after)
    (heval : (heardAlone known before after).any quiet = true) :
    ¬ RecoversIf platform config Reference.cookie C := by
  intro hall
  obtain ⟨s, s', t, hs, halone, hs', ht, hquiet⟩ := exists_of_heardAlone heval
  obtain ⟨hrec, hconn, hpend, hknown⟩ := alone_receives halone
  rw [quiet, Bool.and_eq_true, List.isEmpty_iff] at hquiet
  rcases hall s s' t 0 _ "b" (addr 2) after hs (hC s hknown) hrec hconn hpend hs' ht
    (not_inFlight_of_sentAll hquiet.1) with hpending | hhappens
  · have hmem : platform.printAddr (addr 2) ∈ t.daemon.state.pendingJoins := hpending
    rw [hquiet.2] at hmem
    cases hmem
  · obtain ⟨a, ha, u, rfl, -⟩ := System.exists_of_happens hhappens
    exact hdrain ha

/-- A second beacon of a node that could not be dialled is ignored, and a first beacon is
dropped if the node has connected meanwhile. -/
theorem reportedAgain_not_recovered :
    ¬ RecoversIf platform config Reference.cookie (fun _ _ _ => True) ∧
      ¬ RecoversIf platform config Reference.cookie (fun s i key => ¬ s.Known i key) := by
  constructor
  · refine not_recoversIf ["b"] dialFails [] (fun _ _ => trivial) List.not_mem_nil ?_
    decide +kernel
  · refine not_recoversIf [] [] connectsMeanwhile (fun s hknown hkey => ?_)
      (by simp [connectsMeanwhile, inboundRegisters]) ?_
    · exact List.not_mem_nil (hknown hkey)
    · decide +kernel

end

end Discovering
end Pmd
