import Gnostr.Swarm.Sync

/-!
# Peers that exchange databases

Several peers of one topic with the messages between them. A peer broadcasts its databases to the
peers its `discovery` core lists; a message arrives after any delay and in any order, connections
open and close at any time, and the handlers wait for cores and inputs that may fail.

`discovery_agrees` says what the exchange is for: once no message is under way and no handler waits,
a peer knows all databases of those it can be reached from. `discovery_ends` says that this state is
reached: a number of messages and of continuations that depends only on the number of peers and of
connections opened. Events that peers send each other are inputs of the topic here.
-/

namespace Gnostr.Swarm

open Wire

/-! ## The network -/

/-- An extension message of `-sync` or `-request-sync`. -/
inductive SyncMessage where
  | sync (urls : List Json)
  | requestSync

/-- The urls in a message. -/
def SyncMessage.urls : SyncMessage → List Json
  | sync urls => urls
  | requestSync => []

/-- The handler a message starts. -/
def SyncMessage.input : SyncMessage → PeerInput
  | sync urls => .sync (.arr urls)
  | requestSync => .requestSync

/-- The message that is broadcast. -/
def Gossip.message : Gossip → Option SyncMessage
  | broadcast _ urls => some (.sync urls)
  | requestSync => some .requestSync
  | _ => none

/-- A message under way. -/
structure Packet (ι : Type) where
  source : ι
  target : ι
  message : SyncMessage

/-- The peers of a topic; a link `(i, j)` says that `j` is among `discovery.peers` of `i`. -/
structure Discovery (ι : Type) where
  peers : ι → Peer
  links : List (ι × ι)
  flight : List (Packet ι)

/-- What goes on in the network. -/
inductive DiscoveryInput (ι : Type) where
  /-- `j` becomes a peer of `i`. -/
  | opened (i j : ι)
  /-- `j` is no longer a peer of `i`, and what `i` sent it is lost. -/
  | closed (i j : ι)
  /-- A message arrives. -/
  | delivered (packet : Nat)
  /-- A handler goes on. -/
  | resume (i : ι) (sync : Nat) (result : Except Thrown Unit)
  | topic (i : ι) (input : Input)

section

variable {ι : Type} [DecidableEq ι]

/-- A packet for each of a peer's peers, for everything it broadcast. -/
def packets (links : List (ι × ι)) (i : ι) (noted : List Gossip) : List (Packet ι) :=
  (noted.filterMap Gossip.message).flatMap fun message =>
    (links.filter fun link => link.1 = i).map fun link => ⟨i, link.2, message⟩

/-- A step of one peer. What it broadcast on the way is sent. -/
def Discovery.act (platform : Platform) (i : ι) (input : PeerInput) (net : Discovery ι) :
    Discovery ι :=
  let peer := stepPeer platform (net.peers i) input
  let noted := peer.gossip.drop (net.peers i).gossip.length
  { net with
    peers := Function.update net.peers i peer
    flight := net.flight ++ packets net.links i noted }

/-- One step. -/
def stepDiscovery (platform : Platform) (net : Discovery ι) : DiscoveryInput ι → Discovery ι
  | .opened i j =>
      if (i, j) ∈ net.links then net
      else { net with links := net.links ++ [(i, j)] }.act platform i .peerAdd
  | .closed i j =>
      { net with
        links := net.links.filter fun link => link ≠ (i, j)
        flight := net.flight.filter fun packet => (packet.source, packet.target) ≠ (i, j) }
  | .delivered k =>
      match net.flight[k]? with
      | none => net
      | some packet =>
          { net with flight := net.flight.eraseIdx k }.act platform packet.target
            packet.message.input
  | .resume i sync result => net.act platform i (.resume sync result)
  | .topic i input => net.act platform i (.topic input)

/-- A run. -/
def runDiscovery (platform : Platform) (net : Discovery ι) (inputs : List (DiscoveryInput ι)) :
    Discovery ι :=
  inputs.foldl (stepDiscovery platform) net

end

/-- Peers that know their own database only and have not met. -/
def Discovery.start {ι : Type} (localUrl : ι → Bytes) (topic : ι → Topic) : Discovery ι :=
  ⟨fun i => Peer.start (localUrl i) (topic i), [], []⟩

/-! ## What one peer does -/

/-- What an input does to the databases a peer knows and to its runs, and what it notes. -/
inductive Outcome (peer : Peer) : PeerInput → List Json → List Sync → List Gossip → Prop where
  | topic (input : Input) : Outcome peer (.topic input) peer.knownDBs peer.syncs []
  | requestSync :
      Outcome peer .requestSync peer.knownDBs peer.syncs [.broadcast none peer.knownDBs]
  | peerAdd :
      Outcome peer .peerAdd peer.knownDBs peer.syncs
        [.requestSync, .broadcast none peer.knownDBs]
  | nothingNew {urls : List Json} (h : ∀ url ∈ urls, peer.knows url = true) :
      Outcome peer (.sync (.arr urls)) peer.knownDBs peer.syncs [.began peer.runs peer.knownDBs]
  | new {seen : List Json} {url : Json} {rest : List Json}
      (h : ∀ url ∈ seen, peer.knows url = true) (hnew : peer.knows url = false) :
      Outcome peer (.sync (.arr (seen ++ url :: rest))) (peer.knownDBs ++ [url])
        (peer.syncs ++ [.get peer.runs url rest]) [.began peer.runs peer.knownDBs]
  | noRun {i : Nat} (result : Except Thrown Unit) (h : peer.syncs[i]? = none) :
      Outcome peer (.resume i result) peer.knownDBs peer.syncs []
  | failed {i : Nat} {sync : Sync} (thrown : Thrown) (h : peer.syncs[i]? = some sync) :
      Outcome peer (.resume i (.error thrown)) peer.knownDBs (peer.syncs.eraseIdx i)
        [.rejected thrown]
  | got {i run : Nat} {url : Json} {rest : List Json}
      (h : peer.syncs[i]? = some (.get run url rest)) :
      Outcome peer (.resume i (.ok ())) peer.knownDBs (peer.syncs.eraseIdx i ++ [.add run rest])
        [.addInput url]
  | finished {i run : Nat} {rest : List Json} (h : peer.syncs[i]? = some (.add run rest))
      (hrest : ∀ url ∈ rest, peer.knows url = true) :
      Outcome peer (.resume i (.ok ())) peer.knownDBs (peer.syncs.eraseIdx i)
        [.broadcast (some run) peer.knownDBs]
  | another {i run : Nat} {seen : List Json} {url : Json} {rest : List Json}
      (h : peer.syncs[i]? = some (.add run (seen ++ url :: rest)))
      (hseen : ∀ url ∈ seen, peer.knows url = true) (hnew : peer.knows url = false) :
      Outcome peer (.resume i (.ok ())) (peer.knownDBs ++ [url])
        (peer.syncs.eraseIdx i ++ [.get run url rest]) []

/-- The loop ends where all is known, and stops at the first url that is not. -/
theorem sync_loop_split (run : Nat) (sawNew : Bool) (urls : List Json) (peer : Peer) :
    ((∀ url ∈ urls, peer.knows url = true) ∧
        syncLoop run sawNew urls peer = if sawNew then broadcastDBs (some run) peer else peer) ∨
      ∃ seen url rest, urls = seen ++ url :: rest ∧ (∀ url ∈ seen, peer.knows url = true) ∧
        peer.knows url = false ∧ syncLoop run sawNew urls peer = handleNewDB run url rest peer := by
  induction urls with
  | nil => exact .inl ⟨by simp, rfl⟩
  | cons url rest ih =>
      unfold syncLoop
      split
      · next hknows =>
        rcases ih with ⟨hall, hend⟩ | ⟨seen, new, behind, rfl, hseen, hnew, hloop⟩
        · exact .inl ⟨List.forall_mem_cons.mpr ⟨hknows, hall⟩, hend⟩
        · exact .inr ⟨url :: seen, new, behind, rfl, List.forall_mem_cons.mpr ⟨hknows, hseen⟩,
            hnew, hloop⟩
      · next hknows =>
        exact .inr ⟨[], url, rest, rfl, by simp, Bool.eq_false_iff.mpr hknows, rfl⟩

/-- A message of a peer is an array. -/
def PeerInput.Listed : PeerInput → Prop
  | .sync message => ∃ urls, message = .arr urls
  | _ => True

/-- What a message tells is a list. -/
theorem listed_message (message : SyncMessage) : message.input.Listed := by
  cases message with
  | sync urls => exact ⟨urls, rfl⟩
  | requestSync => trivial

/-- Every step of a peer has one of these outcomes. -/
theorem outcome_step (platform : Platform) (peer : Peer) {input : PeerInput}
    (hinput : input.Listed) :
    ∃ noted, (stepPeer platform peer input).gossip = peer.gossip ++ noted ∧
      Outcome peer input (stepPeer platform peer input).knownDBs
        (stepPeer platform peer input).syncs noted := by
  cases input with
  | topic input => exact ⟨[], (List.append_nil _).symm, .topic input⟩
  | requestSync => exact ⟨_, rfl, .requestSync⟩
  | peerAdd => exact ⟨[_, _], by simp [stepPeer, initConnection, broadcastDBs, Peer.note], .peerAdd⟩
  | sync message =>
      obtain ⟨urls, rfl⟩ := hinput
      show ∃ noted, (onSync (.arr urls) peer).gossip = _ ∧
        Outcome peer _ (onSync (.arr urls) peer).knownDBs (onSync (.arr urls) peer).syncs noted
      have hbegun : onSync (.arr urls) peer = syncLoop peer.runs false urls
          { peer.note (.began peer.runs peer.knownDBs) with runs := peer.runs + 1 } := rfl
      refine ⟨[.began peer.runs peer.knownDBs], ?_⟩
      rw [hbegun]
      rcases sync_loop_split peer.runs false urls
          { peer.note (.began peer.runs peer.knownDBs) with runs := peer.runs + 1 } with
        ⟨hall, hend⟩ | ⟨seen, url, rest, rfl, hseen, hnew, hloop⟩
      · rw [hend]
        exact ⟨rfl, .nothingNew hall⟩
      · rw [hloop]
        exact ⟨rfl, .new hseen hnew⟩
  | resume i result =>
      cases hsync : peer.syncs[i]? with
      | none =>
          have hstay : stepPeer platform peer (.resume i result) = peer := by
            simp only [stepPeer, hsync]
          rw [hstay]
          exact ⟨[], (List.append_nil _).symm, .noRun result hsync⟩
      | some sync =>
          have hgo : stepPeer platform peer (.resume i result) =
              proceedSync result sync { peer with syncs := peer.syncs.eraseIdx i } := by
            simp only [stepPeer, hsync]
          rw [hgo]
          cases result with
          | error thrown => exact ⟨_, rfl, .failed thrown hsync⟩
          | ok _ =>
              cases sync with
              | get run url rest => exact ⟨_, rfl, .got hsync⟩
              | add run rest =>
                  unfold proceedSync
                  dsimp only
                  rcases sync_loop_split run true rest { peer with
                      topic := queryAll peer.topic, syncs := peer.syncs.eraseIdx i } with
                    ⟨hall, hend⟩ | ⟨seen, url, behind, rfl, hseen, hnew, hloop⟩
                  · rw [hend]
                    exact ⟨_, rfl, .finished hsync hall⟩
                  · rw [hloop]
                    exact ⟨[], (List.append_nil _).symm, .another hsync hseen hnew⟩

/-! ## Nothing is lost -/

/-- A run of the handler failed. -/
def Gossip.isRejected : Gossip → Bool
  | rejected _ => true
  | _ => false

/-- No run of the handler has failed. -/
def Peer.Unfailing (peer : Peer) : Prop :=
  ∀ effect ∈ peer.gossip, effect.isRejected = false

/-- A peer whose record has no exception. -/
theorem unfailing_of_any {peer : Peer} (h : peer.gossip.any Gossip.isRejected = false) :
    peer.Unfailing :=
  fun effect heffect => Bool.eq_false_iff.mpr (List.any_eq_false.mp h effect heffect)

/-- A url is known, or a run that waits is going to look at it. -/
def Heeds (known : List Json) (syncs : List Sync) (url : Json) : Prop :=
  url ∈ known ∨ ∃ sync ∈ syncs, url ∈ sync.rest

/-- A text that is known is among the known databases. -/
theorem mem_of_knows {peer : Peer} {t : Bytes} (h : peer.knows (.str t) = true) :
    .str t ∈ peer.knownDBs := by
  obtain ⟨known, hmem, hequal⟩ := List.any_eq_true.mp h
  cases known with
  | str t' =>
      have ht : t' = t := by simpa [strictEqual] using hequal
      exact ht ▸ hmem
  | _ => simp [strictEqual, number] at hequal

/-- The urls of the message that comes in. -/
def PeerInput.urls : PeerInput → List Json
  | .sync (.arr urls) => urls
  | _ => []

/-- What comes in with a message is what it tells. -/
theorem urls_input (message : SyncMessage) : message.input.urls = message.urls := by
  cases message <;> rfl

/-- With more known, no less is heeded. -/
theorem Heeds.mono {known known' : List Json} {syncs syncs' : List Sync} {url : Json}
    (h : Heeds known syncs url) (hknown : known ⊆ known') (hsyncs : syncs ⊆ syncs') :
    Heeds known' syncs' url :=
  h.imp (fun hmem => hknown hmem) fun ⟨sync, hsync, hmem⟩ => ⟨sync, hsyncs hsync, hmem⟩

/-- What a run was going to look at is all that is lost when it no longer waits. -/
theorem Heeds.taken {known : List Json} {syncs : List Sync} {url : Json}
    (h : Heeds known syncs url) {i : Nat} {sync : Sync} (hsync : syncs[i]? = some sync) :
    Heeds known (syncs.eraseIdx i) url ∨ url ∈ sync.rest := by
  rcases h with hknown | ⟨other, hother, hmem⟩
  · exact .inl (.inl hknown)
  · obtain ⟨hi, hget⟩ := List.getElem?_eq_some_iff.mp hsync
    have hperm := (List.getElem_cons_eraseIdx_perm hi).mem_iff.mpr hother
    rcases List.mem_cons.mp hperm with rfl | hother
    · exact .inr (hget ▸ hmem)
    · exact .inl (.inr ⟨other, hother, hmem⟩)

section

variable {peer : Peer} {input : PeerInput} {known : List Json} {syncs : List Sync}
  {noted : List Gossip}

/-- A text that is heeded stays so, and one that is heard of is heeded, unless a run fails. -/
theorem Outcome.heeds (h : Outcome peer input known syncs noted)
    (hfail : ∀ effect ∈ noted, effect.isRejected = false) {t : Bytes}
    (ht : Heeds peer.knownDBs peer.syncs (.str t) ∨ .str t ∈ input.urls) :
    Heeds known syncs (.str t) := by
  -- where the loop stopped, the urls before are known and those behind are left for later
  have hsplit : ∀ {seen rest : List Json} {url : Json} {sync : Sync} (more : List Sync),
      (∀ url ∈ seen, peer.knows url = true) → sync.rest = rest →
      .str t ∈ seen ++ url :: rest → Heeds (peer.knownDBs ++ [url]) (more ++ [sync]) (.str t) := by
    intro seen rest url sync more hseen hrest hmem
    rcases List.mem_append.mp hmem with hmem | hmem
    · exact .inl (List.mem_append_left _ (mem_of_knows (hseen _ hmem)))
    rcases List.mem_cons.mp hmem with rfl | hmem
    · exact .inl (List.mem_append_right _ List.mem_cons_self)
    · exact .inr ⟨sync, List.mem_append_right _ List.mem_cons_self, hrest ▸ hmem⟩
  cases h with
  | topic | requestSync | peerAdd | noRun =>
      rcases ht with ht | ht
      · exact ht
      · cases ht
  | nothingNew hall =>
      rcases ht with ht | ht
      · exact ht
      · exact .inl (mem_of_knows (hall _ ht))
  | new hseen hnew =>
      rcases ht with ht | ht
      · exact ht.mono (List.subset_append_left ..) (List.subset_append_left ..)
      · exact hsplit _ hseen rfl ht
  | failed thrown hsync => exact absurd (hfail _ List.mem_cons_self) Bool.noConfusion
  | got hsync =>
      rcases ht with ht | ht
      · rcases ht.taken hsync with ht | ht
        · exact ht.mono (List.Subset.refl _) (List.subset_append_left ..)
        · exact .inr ⟨_, List.mem_append_right _ List.mem_cons_self, ht⟩
      · cases ht
  | finished hsync hrest =>
      rcases ht with ht | ht
      · rcases ht.taken hsync with ht | ht
        · exact ht
        · exact .inl (mem_of_knows (hrest _ ht))
      · cases ht
  | another hsync hseen hnew =>
      rcases ht with ht | ht
      · rcases ht.taken hsync with ht | ht
        · exact ht.mono (List.subset_append_left ..) (List.subset_append_left ..)
        · exact hsplit _ hseen rfl ht
      · cases ht

/-- When no run waits afterwards, all that is known has been broadcast, or nothing has changed. -/
theorem Outcome.told (h : Outcome peer input known syncs noted)
    (hfail : ∀ effect ∈ noted, effect.isRejected = false) (hsyncs : syncs = []) :
    .sync known ∈ noted.filterMap Gossip.message ∨
      input ≠ .peerAdd ∧ known = peer.knownDBs ∧ peer.syncs = [] := by
  cases h with
  | topic => exact .inr ⟨by simp, rfl, hsyncs⟩
  | requestSync => exact .inl (by simp [Gossip.message])
  | peerAdd => exact .inl (by simp [Gossip.message])
  | nothingNew => exact .inr ⟨by simp, rfl, hsyncs⟩
  | noRun => exact .inr ⟨by simp, rfl, hsyncs⟩
  | failed thrown => exact absurd (hfail _ List.mem_cons_self) Bool.noConfusion
  | finished => exact .inl (by simp [Gossip.message])
  | new | got | another => simp at hsyncs

end

/-! ## What a peer knows, its peers know -/

section

variable {ι : Type} [DecidableEq ι] {net : Discovery ι}

/-- A url is heeded at `j`, or on its way there from `i`. -/
def Discovery.Carried (net : Discovery ι) (i j : ι) (url : Json) : Prop :=
  Heeds (net.peers j).knownDBs (net.peers j).syncs url ∨
    ∃ packet ∈ net.flight, packet.source = i ∧ packet.target = j ∧ url ∈ packet.message.urls

/-- Both ends of a link have not failed. -/
def Discovery.Sound (net : Discovery ι) (link : ι × ι) : Prop :=
  link ∈ net.links ∧ (net.peers link.1).Unfailing ∧ (net.peers link.2).Unfailing

/-- What a peer knows while none of its runs waits is carried over every link. -/
def Discovery.Informed (net : Discovery ι) : Prop :=
  ∀ link, net.Sound link → (net.peers link.1).syncs = [] →
    ∀ t, .str t ∈ (net.peers link.1).knownDBs → net.Carried link.1 link.2 (.str t)

/-- A packet for each link and each message. -/
theorem mem_packets {links : List (ι × ι)} {i j : ι} {noted : List Gossip} {message : SyncMessage}
    (hlink : (i, j) ∈ links) (hmessage : message ∈ noted.filterMap Gossip.message) :
    ⟨i, j, message⟩ ∈ packets links i noted := by
  refine List.mem_flatMap.mpr ⟨message, hmessage, List.mem_map.mpr ⟨(i, j), ?_, rfl⟩⟩
  exact List.mem_filter.mpr ⟨hlink, by simp⟩

/-- A step of a peer, with its outcome. -/
theorem act_cases (platform : Platform) (i : ι) {input : PeerInput} (hinput : input.Listed)
    (net : Discovery ι) :
    ∃ peer noted, peer.gossip = (net.peers i).gossip ++ noted ∧
      Outcome (net.peers i) input peer.knownDBs peer.syncs noted ∧
      net.act platform i input =
        { net with
          peers := Function.update net.peers i peer
          flight := net.flight ++ packets net.links i noted } := by
  obtain ⟨noted, hnoted, houtcome⟩ := outcome_step platform (net.peers i) hinput
  refine ⟨_, noted, hnoted, houtcome, ?_⟩
  rw [Discovery.act, hnoted, List.drop_left]

/-- What is carried before a step of a peer is carried after it, and so is what that peer hears of,
unless a run of it fails. -/
theorem Outcome.carried {i : ι} {input : PeerInput} {peer : Peer} {noted : List Gossip}
    (h : Outcome (net.peers i) input peer.knownDBs peer.syncs noted) (links : List (ι × ι))
    {a b : ι} (hfail : b = i → ∀ effect ∈ noted, effect.isRejected = false) {t : Bytes}
    (ht : net.Carried a b (.str t) ∨ b = i ∧ .str t ∈ input.urls) :
    Discovery.Carried ⟨Function.update net.peers i peer, links,
      net.flight ++ packets net.links i noted⟩ a b (.str t) := by
  show Heeds (Function.update net.peers i peer b).knownDBs
    (Function.update net.peers i peer b).syncs _ ∨ _
  by_cases hb : b = i
  · subst hb
    rw [Function.update_self]
    rcases ht with (ht | ⟨packet, hmem, hpacket⟩) | ⟨-, ht⟩
    · exact .inl (h.heeds (hfail rfl) (.inl ht))
    · exact .inr ⟨packet, List.mem_append_left _ hmem, hpacket⟩
    · exact .inl (h.heeds (hfail rfl) (.inr ht))
  · rw [Function.update_of_ne hb]
    rcases ht with (ht | ⟨packet, hmem, hpacket⟩) | ⟨hb', -⟩
    · exact .inl ht
    · exact .inr ⟨packet, List.mem_append_left _ hmem, hpacket⟩
    · exact absurd hb' hb

/-- A step of a peer keeps all informed, if what is no longer carried is in the message it gets, and
a link that is new is one of a peer that broadcasts. -/
theorem informed_act (platform : Platform) (i : ι) {input : PeerInput} (hinput : input.Listed)
    (h : ∀ link, net.Sound link → (net.peers link.1).syncs = [] →
      ∀ t, .str t ∈ (net.peers link.1).knownDBs →
        link.1 = i ∧ input = .peerAdd ∨ net.Carried link.1 link.2 (.str t) ∨
          link.2 = i ∧ .str t ∈ input.urls) :
    (net.act platform i input).Informed := by
  obtain ⟨peer, noted, hgossip, houtcome, hact⟩ := act_cases platform i hinput net
  rw [hact]
  -- a peer that has not failed afterwards had not before
  have hbefore : ∀ c, (Function.update net.peers i peer c).Unfailing →
      (net.peers c).Unfailing ∧ (c = i → ∀ effect ∈ noted, effect.isRejected = false) := by
    intro c hsound
    by_cases hc : c = i
    · subst hc
      rw [Function.update_self] at hsound
      rw [Peer.Unfailing, hgossip] at hsound
      exact ⟨fun effect hmem => hsound effect (List.mem_append_left _ hmem),
        fun _ effect hmem => hsound effect (List.mem_append_right _ hmem)⟩
    · rw [Function.update_of_ne hc] at hsound
      exact ⟨hsound, fun heq => absurd heq hc⟩
  rintro ⟨a, b⟩ ⟨hlink, hsource, htarget⟩ hsyncs t ht
  obtain ⟨hsource, hfail⟩ := hbefore a hsource
  obtain ⟨htarget, hfail'⟩ := hbefore b htarget
  have hsound : net.Sound (a, b) := ⟨hlink, hsource, htarget⟩
  have hcarried : net.Carried a b (.str t) ∨ b = i ∧ .str t ∈ input.urls → _ :=
    houtcome.carried net.links hfail'
  by_cases ha : a = i
  · subst ha
    dsimp only at hsyncs ht
    rw [Function.update_self] at hsyncs ht
    rcases houtcome.told (hfail rfl) hsyncs with hsent | ⟨hadd, hknown, hwaiting⟩
    · exact .inr ⟨_, List.mem_append_right _ (mem_packets hlink hsent), rfl, rfl, ht⟩
    · rw [hknown] at ht
      exact hcarried ((h _ hsound hwaiting t ht).resolve_left fun hnew => hadd hnew.2)
  · dsimp only at hsyncs ht
    rw [Function.update_of_ne ha] at hsyncs ht
    exact hcarried ((h _ hsound hsyncs t ht).resolve_left fun hnew => ha hnew.1)

/-- One step. -/
theorem Discovery.Informed.step (platform : Platform) (h : net.Informed)
    (input : DiscoveryInput ι) : (stepDiscovery platform net input).Informed := by
  cases input with
  | opened i j =>
      unfold stepDiscovery
      dsimp only
      split
      · exact h
      · refine informed_act platform i trivial fun link hsound hsyncs t ht => ?_
        obtain ⟨hlink, hsource, htarget⟩ := hsound
        rcases List.mem_append.mp hlink with hlink | hlink
        · exact .inr (.inl (h link ⟨hlink, hsource, htarget⟩ hsyncs t ht))
        · obtain rfl := List.mem_singleton.mp hlink
          exact .inl ⟨rfl, rfl⟩
  | closed i j =>
      intro link ⟨hlink, hsource, htarget⟩ hsyncs t ht
      obtain ⟨hlink, hne⟩ := List.mem_filter.mp hlink
      rcases h link ⟨hlink, hsource, htarget⟩ hsyncs t ht with hheeds | ⟨packet, hmem, hs, ht, hurl⟩
      · exact .inl hheeds
      · refine .inr ⟨packet, List.mem_filter.mpr ⟨hmem, ?_⟩, hs, ht, hurl⟩
        rw [hs, ht]
        exact hne
  | delivered k =>
      unfold stepDiscovery
      dsimp only
      split
      · exact h
      · next packet hpacket =>
        refine informed_act platform packet.target (listed_message _)
          fun link hsound hsyncs t ht => .inr ?_
        rcases h link hsound hsyncs t ht with hheeds | ⟨other, hmem, hs, ht, hurl⟩
        · exact .inl (.inl hheeds)
        · obtain ⟨hk, hget⟩ := List.getElem?_eq_some_iff.mp hpacket
          have hperm := (List.getElem_cons_eraseIdx_perm hk).mem_iff.mpr hmem
          rcases List.mem_cons.mp hperm with heq | hmem
          · obtain rfl : other = packet := heq.trans hget
            exact .inr ⟨ht.symm, (urls_input other.message).symm ▸ hurl⟩
          · exact .inl (.inr ⟨other, hmem, hs, ht, hurl⟩)
  | resume i sync result =>
      refine informed_act platform i trivial fun link hsound hsyncs t ht => ?_
      exact .inr (.inl (h link hsound hsyncs t ht))
  | topic i input =>
      refine informed_act platform i trivial fun link hsound hsyncs t ht => ?_
      exact .inr (.inl (h link hsound hsyncs t ht))

end

/-! ## No url is made up -/

/-- What is broadcast is known. -/
theorem Outcome.broadcast {peer : Peer} {input : PeerInput} {known : List Json}
    {syncs : List Sync} {noted : List Gossip} (h : Outcome peer input known syncs noted)
    {message : SyncMessage} (hmessage : message ∈ noted.filterMap Gossip.message) :
    message.urls ⊆ peer.knownDBs := by
  have hcases : message = .sync peer.knownDBs ∨ message = .requestSync := by
    cases h with
    | peerAdd =>
        have hmessages := List.mem_pair.mp hmessage
        exact hmessages.symm
    | _ => simp_all [Gossip.message]
  rcases hcases with rfl | rfl
  · exact List.Subset.refl _
  · exact List.nil_subset _

section

variable {ι : Type} [DecidableEq ι] {net : Discovery ι} {localUrl : ι → Bytes}
  {U : Finset Bytes}

/-- Every peer is in order, and all urls are in a set, be they known, waited for or under way. -/
structure Discovery.Valid (localUrl : ι → Bytes) (U : Finset Bytes) (net : Discovery ι) :
    Prop where
  orderly : ∀ i, (net.peers i).Orderly (localUrl i)
  within : ∀ i, (net.peers i).Within U
  flight : ∀ packet ∈ net.flight, Mentioned U packet.message.urls
  links : net.links.Nodup

omit [DecidableEq ι] in
/-- All a peer knows is in the set when its own url is. -/
theorem Discovery.Valid.known (h : net.Valid localUrl U) (hU : ∀ i, localUrl i ∈ U) (i : ι) :
    Mentioned U (net.peers i).knownDBs := by
  rw [← List.cons_head?_tail (h.orderly i).localFirst]
  exact List.forall_mem_cons.mpr ⟨⟨_, hU i, rfl⟩, (h.within i).known⟩

/-- An action of a peer keeps the network valid. -/
theorem Discovery.Valid.act (platform : Platform) (h : net.Valid localUrl U)
    (hU : ∀ i, localUrl i ∈ U) (i : ι) {input : PeerInput} (hinput : input.Listed)
    (hmentions : input.Mentions U) : (net.act platform i input).Valid localUrl U := by
  obtain ⟨noted, hnoted, houtcome⟩ := outcome_step platform (net.peers i) hinput
  refine ⟨fun j => ?_, fun j => ?_, fun packet hpacket => ?_, h.links⟩
  · show (Function.update net.peers i _ j).Orderly (localUrl j)
    by_cases hj : j = i
    · subst hj
      rw [Function.update_self]
      exact (h.orderly j).step platform input
    · rw [Function.update_of_ne hj]
      exact h.orderly j
  · show (Function.update net.peers i _ j).Within U
    by_cases hj : j = i
    · subst hj
      rw [Function.update_self]
      exact (h.within j).step platform hmentions
    · rw [Function.update_of_ne hj]
      exact h.within j
  · rcases List.mem_append.mp hpacket with hpacket | hpacket
    · exact h.flight packet hpacket
    · rw [hnoted, List.drop_left] at hpacket
      obtain ⟨message, hmessage, hpacket⟩ := List.mem_flatMap.mp hpacket
      obtain ⟨link, -, rfl⟩ := List.mem_map.mp hpacket
      exact fun url hurl => h.known hU i url (houtcome.broadcast hmessage hurl)

omit [DecidableEq ι] in
/-- A new link. -/
theorem Discovery.Valid.link (h : net.Valid localUrl U) {link : ι × ι} (hnew : link ∉ net.links) :
    Discovery.Valid localUrl U { net with links := net.links ++ [link] } := by
  refine ⟨h.orderly, h.within, h.flight,
    List.nodup_append.mpr ⟨h.links, List.nodup_singleton _, ?_⟩⟩
  rintro other hmem _ hsingle rfl
  exact hnew (List.mem_singleton.mp hsingle ▸ hmem)

omit [DecidableEq ι] in
/-- A message that arrives is one about urls of the set. -/
theorem Discovery.Valid.arrives (h : net.Valid localUrl U) {k : Nat} {packet : Packet ι}
    (hpacket : net.flight[k]? = some packet) :
    Discovery.Valid localUrl U { net with flight := net.flight.eraseIdx k } ∧
      packet.message.input.Mentions U := by
  have hurls := h.flight packet (List.mem_of_getElem? hpacket)
  have hothers : ∀ other ∈ net.flight.eraseIdx k, Mentioned U other.message.urls :=
    fun other hother => h.flight other (List.mem_of_mem_eraseIdx hother)
  refine ⟨⟨h.orderly, h.within, hothers, h.links⟩, ?_⟩
  cases hmessage : packet.message with
  | requestSync => trivial
  | sync urls =>
      rw [hmessage] at hurls
      rintro _ ⟨⟩
      exact hurls

/-- One step. -/
theorem Discovery.Valid.step (platform : Platform) (h : net.Valid localUrl U)
    (hU : ∀ i, localUrl i ∈ U) (input : DiscoveryInput ι) :
    (stepDiscovery platform net input).Valid localUrl U := by
  cases input with
  | opened i j =>
      unfold stepDiscovery
      dsimp only
      split
      · exact h
      · next hlink => exact (h.link hlink).act platform hU i trivial trivial
  | closed i j =>
      exact ⟨h.orderly, h.within,
        fun packet hpacket => h.flight packet (List.mem_of_mem_filter hpacket), h.links.filter _⟩
  | delivered k =>
      unfold stepDiscovery
      dsimp only
      split
      · exact h
      · next packet hpacket =>
        obtain ⟨hvalid, hmentions⟩ := h.arrives hpacket
        exact hvalid.act platform hU _ (listed_message _) hmentions
  | resume i sync result => exact h.act platform hU i trivial trivial
  | topic i input => exact h.act platform hU i trivial trivial

omit [DecidableEq ι] in

/-- It is valid at the start. -/
theorem valid_start (localUrl : ι → Bytes) (topic : ι → Topic) (U : Finset Bytes) :
    (Discovery.start localUrl topic).Valid localUrl U where
  orderly i := orderly_start (localUrl i) (topic i)
  within _ := ⟨by simp [Discovery.start, Peer.start, initConnection, broadcastDBs, Mentioned,
    Peer.note], by simp [Discovery.start, Peer.start, initConnection, broadcastDBs, Peer.note]⟩
  flight := by simp [Discovery.start]
  links := List.nodup_nil

/-- A run. -/
theorem Discovery.Valid.run (platform : Platform) (h : net.Valid localUrl U)
    (hU : ∀ i, localUrl i ∈ U) (inputs : List (DiscoveryInput ι)) :
    (runDiscovery platform net inputs).Valid localUrl U := by
  unfold runDiscovery
  induction inputs generalizing net with
  | nil => exact h
  | cons input inputs ih => exact ih (h.step platform hU input)

omit [DecidableEq ι] in

/-- Nobody is connected at the start. -/
theorem informed_start (localUrl : ι → Bytes) (topic : ι → Topic) :
    (Discovery.start localUrl topic).Informed :=
  fun _ hsound => absurd hsound.1 List.not_mem_nil

/-- In a run nobody stays uninformed. -/
theorem Discovery.Informed.run (platform : Platform) (h : net.Informed)
    (inputs : List (DiscoveryInput ι)) : (runDiscovery platform net inputs).Informed := by
  unfold runDiscovery
  induction inputs generalizing net with
  | nil => exact h
  | cons input inputs ih => exact ih (h.step platform input)

end

/-! ## Agreement -/

/-- No message is under way and no handler waits. -/
def Discovery.Quiet {ι : Type} (net : Discovery ι) : Prop :=
  net.flight = [] ∧ ∀ i, (net.peers i).syncs = []

/-- When all is quiet, what is known at one end of a sound link is known at the other. -/
theorem known_of_quiet {ι : Type} [DecidableEq ι] {net : Discovery ι} (h : net.Informed)
    (hquiet : net.Quiet) {i j : ι} (hlink : net.Sound (i, j)) {t : Bytes}
    (ht : .str t ∈ (net.peers i).knownDBs) : .str t ∈ (net.peers j).knownDBs := by
  rcases h (i, j) hlink (hquiet.2 i) t ht with (hknown | ⟨sync, hsync, -⟩) | ⟨packet, hpacket, -⟩
  · exact hknown
  · rw [hquiet.2 j] at hsync
    cases hsync
  · rw [hquiet.1] at hpacket
    cases hpacket

/-- In every run a peer knows urls of peers only. And once no message is under way and no handler
waits, it knows every url that is known to a peer from which there is a way to it, over links and
through peers none of whose runs failed. -/
theorem discovery_agrees {ι : Type} [DecidableEq ι] [Fintype ι] (platform : Platform)
    (localUrl : ι → Bytes) (topic : ι → Topic) (inputs : List (DiscoveryInput ι)) :
    let net := runDiscovery platform (Discovery.start localUrl topic) inputs
    (∀ i, ∀ url ∈ (net.peers i).knownDBs, ∃ j, url = .str (localUrl j)) ∧
      (net.Quiet → ∀ i j, Relation.ReflTransGen (fun i j => net.Sound (i, j)) i j →
        (net.peers i).knownDBs ⊆ (net.peers j).knownDBs) := by
  intro net
  have hU : ∀ i, localUrl i ∈ Finset.univ.image localUrl := fun i =>
    Finset.mem_image_of_mem localUrl (Finset.mem_univ i)
  have hvalid : net.Valid localUrl (Finset.univ.image localUrl) :=
    (valid_start localUrl topic _).run platform hU inputs
  have hinformed : net.Informed := (informed_start localUrl topic).run platform inputs
  have hurls : ∀ i, ∀ url ∈ (net.peers i).knownDBs, ∃ j, url = .str (localUrl j) := by
    intro i url hurl
    obtain ⟨u, hu, rfl⟩ := hvalid.known hU i url hurl
    obtain ⟨j, -, rfl⟩ := Finset.mem_image.mp hu
    exact ⟨j, rfl⟩
  refine ⟨hurls, fun hquiet i j hway => ?_⟩
  induction hway with
  | refl => exact List.Subset.refl _
  | tail _ hlink ih =>
      intro url hurl
      obtain ⟨k, rfl⟩ := hurls i url hurl
      exact known_of_quiet hinformed hquiet hlink (ih hurl)

/-- Two peers: the one hears of the other's database. -/
theorem discovery_agrees_pair :
    let net := runDiscovery samplePlatform
      (Discovery.start (fun i => ascii (if i then "b" else "a")) fun _ => Topic.start ⟨[], 0⟩)
      [.opened false true, .delivered 0, .delivered 0, .resume true 0 (.ok ()),
        .resume true 0 (.ok ())]
    (net.peers false).knownDBs ⊆ (net.peers true).knownDBs := by
  refine (discovery_agrees samplePlatform _ _ _).2 ⟨rfl, fun i => ?_⟩ false true (.single ?_)
  · cases i <;> rfl
  · exact ⟨List.mem_cons_self, unfailing_of_any rfl, unfailing_of_any rfl⟩

/-! ## An end -/

/-- What a run that waits may still cause, when a broadcast goes to at most `n` peers. -/
def Sync.weight (n : Nat) : Sync → Nat
  | .get _ _ _ => n + 2
  | .add _ _ => n + 1

/-- What a message may still cause. -/
def SyncMessage.weight (n : Nat) : SyncMessage → Nat
  | .sync _ => 1
  | .requestSync => n + 1

/-- What a peer may still cause that knows these databases and has these runs waiting, when there
are `n` databases. -/
def pending (n : Nat) (known : List Json) (syncs : List Sync) : Nat :=
  (n - known.length) * (n + 3) + (syncs.map (Sync.weight n)).sum

/-- What an input brings with it. -/
def PeerInput.allowance (n : Nat) : PeerInput → Nat
  | .sync _ => 1
  | .requestSync => n + 1
  | .peerAdd => n * (n + 2)
  | .resume _ _ => 0
  | .topic _ => 0

/-- A message arrives, or a run that waits goes on. -/
def PeerInput.proceeds (peer : Peer) : PeerInput → Bool
  | .sync _ => true
  | .requestSync => true
  | .resume i _ => i < peer.syncs.length
  | .peerAdd => false
  | .topic _ => false

/-- A run that waits no longer takes its weight with it. -/
theorem weight_taken (n : Nat) {syncs : List Sync} {i : Nat} {sync : Sync}
    (h : syncs[i]? = some sync) :
    (syncs.map (Sync.weight n)).sum =
      sync.weight n + ((syncs.eraseIdx i).map (Sync.weight n)).sum := by
  obtain ⟨hi, rfl⟩ := List.getElem?_eq_some_iff.mp h
  rw [← ((List.getElem_cons_eraseIdx_perm hi).map (Sync.weight n)).sum_eq, List.map_cons,
    List.sum_cons]

/-- One message more. -/
theorem weight_concat (n : Nat) (syncs : List Sync) (sync : Sync) :
    ((syncs ++ [sync]).map (Sync.weight n)).sum =
      (syncs.map (Sync.weight n)).sum + sync.weight n := by
  rw [List.map_append, List.sum_append, List.map_singleton, List.sum_singleton]

/-- A database that becomes known pays for the run that waits for it and for a broadcast. -/
theorem pending_concat {n : Nat} {known : List Json} {url : Json}
    (h : (known ++ [url]).length ≤ n) :
    (n - known.length) * (n + 3) = (n - (known ++ [url]).length) * (n + 3) + (n + 3) := by
  rw [List.length_append, List.length_singleton] at *
  have hsub : n - known.length = n - (known.length + 1) + 1 := by omega
  rw [hsub, Nat.succ_mul]

/-- Every step uses up some of what may still happen, with the messages that it sends to at most `n`
peers, or brings as much with it. -/
theorem Outcome.pending_le {peer : Peer} {input : PeerInput} {known : List Json}
    {syncs : List Sync} {noted : List Gossip} (h : Outcome peer input known syncs noted) {n : Nat}
    (hknown : known.length ≤ n) :
    pending n known syncs +
        n * ((noted.filterMap Gossip.message).map (SyncMessage.weight n)).sum +
        (input.proceeds peer).toNat ≤
      pending n peer.knownDBs peer.syncs + input.allowance n := by
  have hgoes : ∀ {i : Nat} {sync : Sync} {result : Except Thrown Unit},
      peer.syncs[i]? = some sync → (PeerInput.resume i result).proceeds peer = true :=
    fun hsync => decide_eq_true (List.getElem?_eq_some_iff.mp hsync).1
  have hweight : ∀ sync : Sync, n + 1 ≤ sync.weight n := by
    intro sync
    cases sync with
    | get => exact Nat.le_succ (n + 1)
    | add => exact Nat.le_refl (n + 1)
  cases h with
  | topic => exact Nat.le_refl _
  | requestSync =>
      show _ + n * 1 + 1 ≤ _ + (n + 1)
      omega
  | peerAdd =>
      have hboth : n * (n + 1 + 1) = n * (n + 2) := rfl
      exact Nat.le_of_eq (congrArg (_ + ·) hboth)
  | nothingNew => exact Nat.le_refl _
  | noRun result hnone =>
      have hstays : (PeerInput.resume _ result).proceeds peer = false :=
        decide_eq_false (Nat.not_lt.mpr (List.getElem?_eq_none_iff.mp hnone))
      rw [hstays]
      exact Nat.le_refl _
  | new hseen hnew =>
      rw [pending, pending, weight_concat, pending_concat hknown]
      show _ + (_ + (n + 2)) + 0 + 1 ≤ _ + (n + 3) + _ + 1
      omega
  | @failed i sync thrown hsync =>
      have hsync' := hweight sync
      rw [pending, pending, weight_taken n hsync, hgoes hsync]
      show _ + _ + 0 + 1 ≤ _ + (sync.weight n + _) + 0
      omega
  | got hsync =>
      rw [pending, pending, weight_taken n hsync, weight_concat, hgoes hsync]
      show _ + (_ + (n + 1)) + 0 + 1 ≤ _ + (n + 2 + _) + 0
      omega
  | finished hsync hrest =>
      rw [pending, pending, weight_taken n hsync, hgoes hsync]
      show _ + _ + n * 1 + 1 ≤ _ + (n + 1 + _) + 0
      omega
  | another hsync hseen hnew =>
      rw [pending, pending, weight_taken n hsync, weight_concat, pending_concat hknown, hgoes hsync]
      show _ + (_ + (n + 2)) + 0 + 1 ≤ _ + (n + 3) + (n + 1 + _) + 0
      omega

section

variable {ι : Type} [DecidableEq ι] [Fintype ι] {net : Discovery ι} {localUrl : ι → Bytes}

/-- What may still happen in a network. -/
def Discovery.weight (net : Discovery ι) : Nat :=
  ∑ i, pending (Fintype.card ι) (net.peers i).knownDBs (net.peers i).syncs +
    (net.flight.map fun packet => packet.message.weight (Fintype.card ι)).sum

/-- A message arrives, or a run that waits goes on. -/
def DiscoveryInput.proceeds (net : Discovery ι) : DiscoveryInput ι → Bool
  | .delivered k => k < net.flight.length
  | .resume i sync _ => sync < (net.peers i).syncs.length
  | _ => false

/-- A connection is opened. -/
def DiscoveryInput.isOpening {ι : Type} : DiscoveryInput ι → Bool
  | .opened _ _ => true
  | _ => false

/-- The other ends of a peer's links are no more than there are peers. -/
theorem weight_packets {links : List (ι × ι)} (hlinks : links.Nodup) (i : ι)
    (noted : List Gossip) (n : Nat) :
    ((packets links i noted).map fun packet => packet.message.weight n).sum ≤
      Fintype.card ι * ((noted.filterMap Gossip.message).map (SyncMessage.weight n)).sum := by
  have hends : (links.filter fun link => link.1 = i).length ≤ Fintype.card ι := by
    have hnodup : ((links.filter fun link => link.1 = i).map Prod.snd).Nodup := by
      refine (hlinks.filter _).map_on fun link hlink link' hlink' heq => ?_
      have hfirst := (List.mem_filter.mp hlink).2
      have hfirst' := (List.mem_filter.mp hlink').2
      exact Prod.ext ((of_decide_eq_true hfirst).trans (of_decide_eq_true hfirst').symm) heq
    simpa using hnodup.length_le_card
  unfold packets
  induction noted.filterMap Gossip.message with
  | nil => simp
  | cons message messages ih =>
      have hone : (((links.filter fun link => link.1 = i).map fun link =>
          (⟨i, link.2, message⟩ : Packet ι)).map fun packet => packet.message.weight n).sum =
          (links.filter fun link => link.1 = i).length * message.weight n := by
        rw [List.map_map]
        simp [Function.comp_def]
      rw [List.flatMap_cons, List.map_append, List.sum_append, hone, List.map_cons, List.sum_cons,
        Nat.mul_add]
      exact Nat.add_le_add (Nat.mul_le_mul_right _ hends) ih

/-- A step of a peer uses up some of what may still happen. -/
theorem weight_act (platform : Platform)
    (h : net.Valid localUrl (Finset.univ.image localUrl)) (i : ι) (input : PeerInput)
    (hinput : input.Listed) (hmentions : input.Mentions (Finset.univ.image localUrl)) :
    (net.act platform i input).weight + (input.proceeds (net.peers i)).toNat ≤
      net.weight + input.allowance (Fintype.card ι) := by
  have hU : ∀ i, localUrl i ∈ Finset.univ.image localUrl := fun i =>
    Finset.mem_image_of_mem localUrl (Finset.mem_univ i)
  have hafter := h.act platform hU i hinput hmentions
  obtain ⟨peer, noted, -, houtcome, hact⟩ := act_cases platform i hinput net
  rw [hact] at hafter ⊢
  have hpeer : Function.update net.peers i peer i = peer := Function.update_self ..
  have hknown : peer.knownDBs.length ≤ Fintype.card ι := by
    have hlength := length_le_card (hafter.orderly i).distinct (hafter.known hU i)
    dsimp only at hlength
    rw [hpeer] at hlength
    exact hlength.trans Finset.card_image_le
  have hothers : ∑ j ∈ Finset.univ.erase i, pending (Fintype.card ι)
        (Function.update net.peers i peer j).knownDBs (Function.update net.peers i peer j).syncs =
      ∑ j ∈ Finset.univ.erase i, pending (Fintype.card ι) (net.peers j).knownDBs
        (net.peers j).syncs := by
    refine Finset.sum_congr rfl fun j hj => ?_
    rw [Function.update_of_ne (Finset.ne_of_mem_erase hj)]
  have hpending := houtcome.pending_le hknown
  have hpackets := weight_packets h.links i noted (Fintype.card ι)
  rw [Discovery.weight, Discovery.weight, ← Finset.add_sum_erase _ _ (Finset.mem_univ i),
    ← Finset.add_sum_erase _ _ (Finset.mem_univ i)]
  dsimp only
  rw [hothers, hpeer, List.map_append, List.sum_append]
  omega

omit [DecidableEq ι] in
/-- A message that arrives no longer takes its weight with it. -/
theorem weight_delivered {k : Nat} {packet : Packet ι} (h : net.flight[k]? = some packet) :
    net.weight = Discovery.weight { net with flight := net.flight.eraseIdx k } +
      packet.message.weight (Fintype.card ι) := by
  obtain ⟨hk, rfl⟩ := List.getElem?_eq_some_iff.mp h
  have hsum := ((List.getElem_cons_eraseIdx_perm hk).map fun packet : Packet ι =>
    packet.message.weight (Fintype.card ι)).sum_eq
  rw [List.map_cons, List.sum_cons] at hsum
  rw [Discovery.weight, Discovery.weight, ← hsum]
  dsimp only
  omega

/-- One step. -/
theorem weight_step (platform : Platform) (h : net.Valid localUrl (Finset.univ.image localUrl))
    (input : DiscoveryInput ι) :
    (stepDiscovery platform net input).weight + (input.proceeds net).toNat ≤
      net.weight + input.isOpening.toNat * (Fintype.card ι * (Fintype.card ι + 2)) := by
  have hother : ∀ input : DiscoveryInput ι, input.isOpening = false →
      input.isOpening.toNat * (Fintype.card ι * (Fintype.card ι + 2)) = 0 := by
    intro input hno
    rw [hno, Bool.toNat_false, Nat.zero_mul]
  cases input with
  | opened i j =>
      unfold stepDiscovery
      dsimp only
      split
      · exact Nat.le_add_right _ _
      · next hlink =>
        have hact := weight_act platform (h.link hlink) i .peerAdd trivial trivial
        rw [DiscoveryInput.isOpening, Bool.toNat_true, Nat.one_mul]
        exact hact
  | closed i j =>
      have hfilter := ((List.filter_sublist (p := fun packet : Packet ι =>
        decide ((packet.source, packet.target) ≠ (i, j))) (l := net.flight)).map
          fun packet => packet.message.weight (Fintype.card ι)).sum_le_sum fun _ _ => Nat.zero_le _
      refine Nat.le_trans ?_ (Nat.le_add_right _ _)
      exact Nat.add_le_add_left hfilter _
  | delivered k =>
      rw [hother (.delivered k) rfl]
      unfold stepDiscovery
      dsimp only
      split
      · next hnone =>
        have hend : net.flight.length ≤ k := List.getElem?_eq_none_iff.mp hnone
        have hstays : (DiscoveryInput.delivered k).proceeds net = false :=
          decide_eq_false (Nat.not_lt.mpr hend)
        rw [hstays]
        exact Nat.le_refl _
      · next packet hpacket =>
        obtain ⟨hvalid, hmentions⟩ := h.arrives hpacket
        have hact := weight_act platform hvalid packet.target packet.message.input
          (listed_message _) hmentions
        have htaken := weight_delivered hpacket
        have hgoes : (packet.message.input.proceeds (net.peers packet.target)).toNat = 1 := by
          cases packet.message <;> rfl
        have hallowed : packet.message.input.allowance (Fintype.card ι) =
            packet.message.weight (Fintype.card ι) := by
          cases packet.message <;> rfl
        have hone : ((DiscoveryInput.delivered k).proceeds net).toNat ≤ 1 := Bool.toNat_le _
        dsimp only at hact
        rw [hgoes, hallowed] at hact
        omega
  | resume i sync result =>
      have hact := weight_act platform h i (.resume sync result) trivial trivial
      rw [hother (.resume i sync result) rfl]
      exact hact
  | topic i input =>
      have hact := weight_act platform h i (.topic input) trivial trivial
      rw [hother (.topic i input) rfl]
      exact hact

/-- How many messages arrive and how often a handler goes on in a run. -/
def Discovery.proceedings (platform : Platform) : Discovery ι → List (DiscoveryInput ι) → Nat
  | _, [] => 0
  | net, input :: inputs =>
      (input.proceeds net).toNat +
        Discovery.proceedings platform (stepDiscovery platform net input) inputs

/-- Every proceeding takes from the weight of the network, and only openings add to it. -/
theorem weight_run (platform : Platform) (h : net.Valid localUrl (Finset.univ.image localUrl))
    (inputs : List (DiscoveryInput ι)) :
    (runDiscovery platform net inputs).weight + net.proceedings platform inputs ≤
      net.weight +
        inputs.countP DiscoveryInput.isOpening * (Fintype.card ι * (Fintype.card ι + 2)) := by
  have hU : ∀ i, localUrl i ∈ Finset.univ.image localUrl := fun i =>
    Finset.mem_image_of_mem localUrl (Finset.mem_univ i)
  induction inputs generalizing net with
  | nil => simp [runDiscovery, Discovery.proceedings]
  | cons input inputs ih =>
      have hstep := weight_step platform h input
      have hrest := ih (h.step platform hU input)
      have hrun : runDiscovery platform net (input :: inputs) =
          runDiscovery platform (stepDiscovery platform net input) inputs := rfl
      have hcount : (input :: inputs).countP DiscoveryInput.isOpening =
          inputs.countP DiscoveryInput.isOpening + input.isOpening.toNat := by
        rw [List.countP_cons]
        cases input.isOpening <;> rfl
      rw [hrun, Discovery.proceedings, hcount, Nat.add_mul]
      omega

omit [DecidableEq ι] [Fintype ι] in
/-- As long as the network is not quiet, something may proceed. -/
theorem exists_proceeds (h : ¬ net.Quiet) :
    ∃ input : DiscoveryInput ι, input.isOpening = false ∧ input.proceeds net = true := by
  rcases not_and_or.mp h with hflight | hsyncs
  · exact ⟨.delivered 0, rfl, decide_eq_true (List.length_pos_iff.mpr hflight)⟩
  · obtain ⟨i, hi⟩ := not_forall.mp hsyncs
    exact ⟨.resume i 0 (.ok ()), rfl, decide_eq_true (List.length_pos_iff.mpr hi)⟩

/-- By steps that open no connection the network becomes quiet. -/
theorem exists_quiet (platform : Platform)
    (h : net.Valid localUrl (Finset.univ.image localUrl)) :
    ∃ more, (∀ input ∈ more, input.isOpening = false) ∧
      (runDiscovery platform net more).Quiet := by
  have hU : ∀ i, localUrl i ∈ Finset.univ.image localUrl := fun i =>
    Finset.mem_image_of_mem localUrl (Finset.mem_univ i)
  induction hw : net.weight using Nat.strong_induction_on generalizing net with
  | _ w ih =>
      by_cases hquiet : net.Quiet
      · exact ⟨[], by simp, hquiet⟩
      · obtain ⟨input, hopening, hproceeds⟩ := exists_proceeds hquiet
        have hstep := weight_step platform h input
        rw [hopening, hproceeds, Bool.toNat_true, Bool.toNat_false, Nat.zero_mul] at hstep
        obtain ⟨more, hmore, hend⟩ := ih _ (by omega) (h.step platform hU input) rfl
        exact ⟨input :: more, List.forall_mem_cons.mpr ⟨hopening, hmore⟩, hend⟩

/-- The exchange comes to an end. In every run the messages that arrive and the continuations of
handlers are together no more than a number that depends on the peers and on the connections opened
only; and as long as the network is not quiet something can proceed, so that it becomes quiet when
no connection is opened any more. -/
theorem discovery_ends (platform : Platform) (localUrl : ι → Bytes) (topic : ι → Topic)
    (inputs : List (DiscoveryInput ι)) :
    let n := Fintype.card ι
    (Discovery.start localUrl topic).proceedings platform inputs ≤
        n * (n - 1) * (n + 3) + inputs.countP DiscoveryInput.isOpening * (n * (n + 2)) ∧
      ∃ more, (∀ input ∈ more, input.isOpening = false) ∧
        (runDiscovery platform (Discovery.start localUrl topic) (inputs ++ more)).Quiet := by
  intro n
  have hU : ∀ i, localUrl i ∈ Finset.univ.image localUrl := fun i =>
    Finset.mem_image_of_mem localUrl (Finset.mem_univ i)
  have hvalid := valid_start localUrl topic (Finset.univ.image localUrl)
  have hstart : (Discovery.start localUrl topic).weight = n * (n - 1) * (n + 3) := by
    have hpeer : ∀ i, pending n ((Discovery.start localUrl topic).peers i).knownDBs
        ((Discovery.start localUrl topic).peers i).syncs = (n - 1) * (n + 3) := fun _ => rfl
    show ∑ i, pending n _ _ + 0 = _
    rw [Finset.sum_congr rfl fun i _ => hpeer i, Finset.sum_const, Finset.card_univ, smul_eq_mul,
      Nat.mul_assoc]
    rfl
  constructor
  · have hrun := weight_run platform hvalid inputs
    rw [hstart] at hrun
    exact (Nat.le_add_left _ _).trans hrun
  · obtain ⟨more, hmore, hquiet⟩ :=
      exists_quiet platform (hvalid.run platform hU inputs)
    refine ⟨more, hmore, ?_⟩
    rw [runDiscovery, List.foldl_append]
    exact hquiet

end

end Gnostr.Swarm
