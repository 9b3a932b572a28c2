import Gnostr.Swarm.Relay

/-!
# Databases of other peers

The `-sync` extension of `template/swarm.js`: peers tell each other the urls of their databases, and
a peer that hears of a new one adds it to its own and tells the others. The handler waits in the
middle of its loop over a message, so several runs of it overlap on the same set; `Sync` is where a
run waits. A step is a message, the arrival of a peer, a run of the handler that goes on, or
anything that happens at the topic.

A database becomes known before the handler waits for it, so no url is added twice. Every broadcast
of the handler is paid for by a database that became known in the same run, and there are no more
of them than databases. At the topic only queries are made for them, so what holds of every run at a
topic holds of a peer as well: `only_verified_events`.
-/

namespace Gnostr.Swarm

open Wire

/-! ## The handler -/

/-- A run of the handler that waits in `handleNewDB`, with the urls it has still to look at. -/
inductive Sync where
  /-- For the core of a url. -/
  | get (run : Nat) (url : Json) (rest : List Json)
  /-- For the core to be added to the inputs. -/
  | add (run : Nat) (rest : List Json)

/-- What can be seen from outside. -/
inductive Gossip where
  /-- A run of the handler begins; the databases known then. -/
  | began (run : Nat) (known : List Json)
  /-- `autobase.addInput` is started. -/
  | addInput (url : Json)
  /-- The known databases are broadcast, by a run of the handler or on another occasion. -/
  | broadcast (run : Option Nat) (urls : List Json)
  /-- The other peers are asked for their databases. -/
  | requestSync
  /-- A run of the handler ends with an exception. -/
  | rejected (thrown : Thrown)

/-- A topic and what its peer knows of others. The runs of the handler are numbered. -/
structure Peer where
  topic : Topic
  knownDBs : List Json
  runs : Nat
  syncs : List Sync
  gossip : List Gossip

/-- Note what happened. -/
def Peer.note (effect : Gossip) (peer : Peer) : Peer :=
  { peer with gossip := peer.gossip ++ [effect] }

/-- `knownDBs.has(url)`. -/
def Peer.knows (peer : Peer) (url : Json) : Bool :=
  peer.knownDBs.any fun known => strictEqual (some known) (some url)

/-- `broadcastDBs`. -/
def broadcastDBs (run : Option Nat) (peer : Peer) : Peer :=
  peer.note (.broadcast run peer.knownDBs)

/-- `handleNewDB` up to its first `await`. -/
def handleNewDB (run : Nat) (url : Json) (rest : List Json) (peer : Peer) : Peer :=
  { peer with
    knownDBs := peer.knownDBs ++ [url]
    syncs := peer.syncs ++ [.get run url rest] }

/-- The loop of the handler, and what follows it. -/
def syncLoop (run : Nat) (sawNew : Bool) : List Json → Peer → Peer
  | [], peer => if sawNew then broadcastDBs (some run) peer else peer
  | url :: rest, peer =>
      if peer.knows url then syncLoop run sawNew rest peer
      else handleNewDB run url rest peer

/-- The handler of a `-sync` message. -/
def onSync (message : Json) (peer : Peer) : Peer :=
  let begun := { peer.note (.began peer.runs peer.knownDBs) with runs := peer.runs + 1 }
  match iterate (some message) with
  | .ok urls => syncLoop peer.runs false urls begun
  | .error thrown => begun.note (.rejected thrown)

/-- `initConnection`. -/
def initConnection (peer : Peer) : Peer :=
  broadcastDBs none (peer.note .requestSync)

/-- A query for every subscription, without an end that anybody waits for. -/
def queryAll (topic : Topic) : Topic :=
  { topic with
    tasks := topic.tasks ++ topic.subscriptions.map fun (key, sub) => .query sub key none }

/-- A run of the handler goes on, if what it waited for did not fail. -/
def proceedSync (result : Except Thrown Unit) (sync : Sync) (peer : Peer) : Peer :=
  match result, sync with
  | .error thrown, _ => peer.note (.rejected thrown)
  | .ok _, .get run url rest =>
      let started := peer.note (.addInput url)
      { started with syncs := started.syncs ++ [.add run rest] }
  | .ok _, .add run rest => syncLoop run true rest { peer with topic := queryAll peer.topic }

/-- What goes on at a peer. -/
inductive PeerInput where
  | topic (input : Input)
  /-- A `-sync` message. -/
  | sync (message : Json)
  /-- A `-request-sync` message. -/
  | requestSync
  | peerAdd
  /-- A run of the handler goes on. -/
  | resume (sync : Nat) (result : Except Thrown Unit)

/-- One step. -/
def stepPeer (platform : Platform) (peer : Peer) : PeerInput → Peer
  | .topic input => { peer with topic := step platform peer.topic input }
  | .sync message => onSync message peer
  | .requestSync => broadcastDBs none peer
  | .peerAdd => initConnection peer
  | .resume i result =>
      match peer.syncs[i]? with
      | none => peer
      | some sync => proceedSync result sync { peer with syncs := peer.syncs.eraseIdx i }

/-- A run. -/
def runPeer (platform : Platform) (peer : Peer) (inputs : List PeerInput) : Peer :=
  inputs.foldl (stepPeer platform) peer

/-- A peer that knows its own database only. -/
def Peer.start (localUrl : Bytes) (topic : Topic) : Peer :=
  initConnection ⟨topic, [.str localUrl], 0, [], []⟩

/-- The loop stops at the first url that is not known; otherwise it ends, with a broadcast if it
has seen something new before. -/
theorem sync_loop_cases (run : Nat) (sawNew : Bool) (urls : List Json) (peer : Peer) :
    syncLoop run sawNew urls peer = (if sawNew then broadcastDBs (some run) peer else peer) ∨
      ∃ url rest, (url :: rest) <:+ urls ∧ peer.knows url = false ∧
        syncLoop run sawNew urls peer = handleNewDB run url rest peer := by
  induction urls with
  | nil => exact .inl rfl
  | cons url rest ih =>
      unfold syncLoop
      split
      · rcases ih with hend | ⟨new, behind, hsuffix, hnew, hloop⟩
        · exact .inl hend
        · exact .inr ⟨new, behind, hsuffix.trans (List.suffix_cons ..), hnew, hloop⟩
      · next hknows =>
        exact .inr ⟨url, rest, List.suffix_refl _, Bool.eq_false_iff.mpr hknows, rfl⟩

/-! ## What a peer did -/

/-- The url of an input that was started. -/
def Gossip.added : Gossip → Option Json
  | .addInput url => some url
  | _ => none

/-- The number of a run that began. -/
def Gossip.begun : Gossip → Option Nat
  | .began run _ => some run
  | _ => none

/-- A broadcast of the handler. -/
def Gossip.isRebroadcast : Gossip → Bool
  | .broadcast (some _) _ => true
  | _ => false

/-- The url a run waits for. -/
def Sync.fetching : Sync → Option Json
  | .get _ url _ => some url
  | .add _ _ => none

/-- The number of a run that waits. -/
def Sync.run : Sync → Nat
  | .get run _ _ => run
  | .add run _ => run

/-- The urls a run has still to look at. -/
def Sync.rest : Sync → List Json
  | .get _ _ rest => rest
  | .add _ rest => rest

/-- Two urls that are not the same. -/
def Different (url url' : Json) : Prop :=
  strictEqual (some url) (some url') = false

/-- Urls differ in both directions. -/
theorem Different.symm {url url' : Json} (h : Different url url') : Different url' url := by
  unfold Different at *
  rw [Bool.eq_false_iff] at *
  exact fun heq => h (strict_equal_symm heq)

/-- A run of the handler has begun. -/
def Peer.Begun (peer : Peer) (run : Nat) : Prop :=
  ∃ known, .began run known ∈ peer.gossip ∧ known <+: peer.knownDBs

/-- More databases are known than when a run of the handler began. -/
def Grown (gossip : List Gossip) (urls : List Json) (run : Nat) : Prop :=
  ∃ known, .began run known ∈ gossip ∧ known <+: urls ∧ known.length < urls.length

/-- Every broadcast of the handler comes after the set has grown in its run. -/
def Justified (gossip : List Gossip) : Prop :=
  ∀ before run urls after, gossip = before ++ .broadcast (some run) urls :: after →
    Grown before urls run

/-- What holds of a peer. A run that waits has made a database known, and each of these pays for
one broadcast. -/
structure Peer.Orderly (localUrl : Bytes) (peer : Peer) : Prop where
  localFirst : peer.knownDBs.head? = some (.str localUrl)
  distinct : peer.knownDBs.Pairwise Different
  started : (peer.gossip.filterMap Gossip.added ++ peer.syncs.filterMap Sync.fetching).Subperm
    peer.knownDBs.tail
  numbered : peer.gossip.filterMap Gossip.begun = List.range peer.runs
  grown : ∀ sync ∈ peer.syncs, Grown peer.gossip peer.knownDBs sync.run
  justified : Justified peer.gossip
  paid : peer.gossip.countP Gossip.isRebroadcast + peer.syncs.length < peer.knownDBs.length

/-- A list that has grown has grown, whatever is noted after. -/
theorem Grown.note {gossip : List Gossip} {urls : List Json} {run : Nat}
    (h : Grown gossip urls run) (more : List Gossip) : Grown (gossip ++ more) urls run := by
  obtain ⟨known, hbegan, hknown⟩ := h
  exact ⟨known, List.mem_append_left _ hbegan, hknown⟩

/-- And when it grows on. -/
theorem Grown.extend {gossip : List Gossip} {urls : List Json} {run : Nat}
    (h : Grown gossip urls run) (more : List Json) : Grown gossip (urls ++ more) run := by
  obtain ⟨known, hbegan, hprefix, hlength⟩ := h
  refine ⟨known, hbegan, hprefix.trans (List.prefix_append ..), ?_⟩
  rw [List.length_append]
  omega

/-- One effect more, justified if it is a broadcast. -/
theorem Justified.concat {gossip : List Gossip} (h : Justified gossip) {effect : Gossip}
    (heffect : ∀ run urls, effect = .broadcast (some run) urls → Grown gossip urls run) :
    Justified (gossip ++ [effect]) := by
  intro before run urls after heq
  rcases List.eq_nil_or_concat after with rfl | ⟨init, last, rfl⟩
  · obtain ⟨rfl, hlast⟩ := List.append_inj' heq rfl
    exact heffect run urls (List.cons.inj hlast).1
  · rw [List.concat_eq_append, ← List.cons_append, ← List.append_assoc] at heq
    obtain ⟨hinit, -⟩ := List.append_inj' heq rfl
    exact h before run urls init hinit

/-- An effect that does not count. -/
theorem filter_map_concat {α : Type} {f : Gossip → Option α} {effect : Gossip}
    (h : f effect = none) (gossip : List Gossip) :
    (gossip ++ [effect]).filterMap f = gossip.filterMap f := by
  rw [List.filterMap_append, List.filterMap_cons_none h, List.filterMap_nil, List.append_nil]

section

variable {localUrl : Bytes} {peer : Peer}

/-- What is noted starts no input and no run; a broadcast of the handler comes after the set has
grown, and is paid for. -/
theorem Peer.Orderly.noted (h : peer.Orderly localUrl) {effect : Gossip}
    (hadded : effect.added = none) (hbegun : effect.begun = none)
    (hgrown : ∀ run urls, effect = .broadcast (some run) urls → Grown peer.gossip urls run)
    (hpaid : peer.gossip.countP Gossip.isRebroadcast + effect.isRebroadcast.toNat +
      peer.syncs.length < peer.knownDBs.length) : (peer.note effect).Orderly localUrl where
  localFirst := h.localFirst
  distinct := h.distinct
  started := by
    show List.Subperm ((peer.gossip ++ [effect]).filterMap Gossip.added ++ _) _
    rw [filter_map_concat hadded]
    exact h.started
  numbered := by
    show (peer.gossip ++ [effect]).filterMap Gossip.begun = _
    rw [filter_map_concat hbegun]
    exact h.numbered
  grown sync hsync := (h.grown sync hsync).note _
  justified := h.justified.concat hgrown
  paid := by
    show (peer.gossip ++ [effect]).countP Gossip.isRebroadcast + _ < _
    rw [List.countP_append, List.countP_singleton]
    cases hbroadcast : effect.isRebroadcast with
    | false =>
        rw [hbroadcast] at hpaid
        exact hpaid
    | true =>
        rw [hbroadcast] at hpaid
        exact hpaid

/-- What is noted otherwise. -/
theorem Peer.Orderly.note (h : peer.Orderly localUrl) (effect : Gossip)
    (hadded : effect.added = none) (hbegun : effect.begun = none)
    (hbroadcast : effect.isRebroadcast = false) : (peer.note effect).Orderly localUrl := by
  refine h.noted hadded hbegun (fun run urls heffect => ?_) ?_
  · rw [heffect] at hbroadcast
    cases hbroadcast
  · rw [hbroadcast]
    exact h.paid

/-- A run of the handler begins. -/
theorem Peer.Orderly.begin (h : peer.Orderly localUrl) :
    Peer.Orderly localUrl
      { peer.note (.began peer.runs peer.knownDBs) with runs := peer.runs + 1 } where
  localFirst := h.localFirst
  distinct := h.distinct
  started := by
    show List.Subperm ((peer.gossip ++ [_]).filterMap Gossip.added ++ _) _
    rw [filter_map_concat rfl]
    exact h.started
  numbered := by
    show (peer.gossip ++ [_]).filterMap Gossip.begun = List.range (peer.runs + 1)
    rw [List.filterMap_append, h.numbered, List.range_succ]
    rfl
  grown sync hsync := (h.grown sync hsync).note _
  justified := h.justified.concat fun run urls heffect => by cases heffect
  paid := by
    show (peer.gossip ++ [_]).countP Gossip.isRebroadcast + _ < _
    rw [List.countP_append]
    exact h.paid

/-- A broadcast that the handler has paid for. -/
theorem Peer.Orderly.rebroadcast (h : peer.Orderly localUrl) {run : Nat}
    (hgrown : Grown peer.gossip peer.knownDBs run)
    (hpaid : peer.gossip.countP Gossip.isRebroadcast + peer.syncs.length + 1 <
      peer.knownDBs.length) :
    (broadcastDBs (some run) peer).Orderly localUrl := by
  refine h.noted rfl rfl (fun run' urls heffect => ?_) ?_
  · obtain ⟨hrun, rfl⟩ := Gossip.broadcast.inj heffect
    obtain rfl := Option.some.inj hrun
    exact hgrown
  · show _ + 1 + peer.syncs.length < peer.knownDBs.length
    omega

/-- A database becomes known. -/
theorem Peer.Orderly.new_db (h : peer.Orderly localUrl) {run : Nat} (hbegun : peer.Begun run)
    {url : Json} (hnew : peer.knows url = false) (rest : List Json) :
    (handleNewDB run url rest peer).Orderly localUrl where
  localFirst := by
    show (peer.knownDBs ++ [url]).head? = _
    rw [List.head?_append, h.localFirst]
    rfl
  distinct := by
    refine List.pairwise_append.mpr ⟨h.distinct, List.pairwise_singleton .., fun known hknown => ?_⟩
    intro new hmem
    rw [List.mem_singleton.mp hmem]
    exact Bool.eq_false_iff.mpr fun heq =>
      absurd (List.any_eq_true.mpr ⟨known, hknown, heq⟩) (Bool.eq_false_iff.mp hnew)
  started := by
    have hne : peer.knownDBs ≠ [] := by
      intro hnil
      have hfirst := h.localFirst
      rw [hnil] at hfirst
      cases hfirst
    show List.Subperm (_ ++ (peer.syncs ++ [_]).filterMap Sync.fetching)
      (peer.knownDBs ++ [url]).tail
    rw [List.tail_append_of_ne_nil hne, List.filterMap_append, ← List.append_assoc]
    exact (List.subperm_append_right [url]).mpr h.started
  numbered := h.numbered
  grown sync hsync := by
    rcases List.mem_append.mp hsync with hsync | hsync
    · exact (h.grown sync hsync).extend [url]
    · obtain ⟨known, hbegan, hknown⟩ := hbegun
      rw [List.mem_singleton.mp hsync]
      refine ⟨known, hbegan, hknown.trans (List.prefix_append ..), ?_⟩
      show known.length < (peer.knownDBs ++ [url]).length
      rw [List.length_append]
      exact Nat.lt_succ_of_le hknown.length_le
  justified := h.justified
  paid := by
    have hpaid := h.paid
    simp only [handleNewDB, List.length_append, List.length_singleton]
    omega

/-- The loop goes on, if it has seen something new with a broadcast paid for. -/
theorem Peer.Orderly.sync_loop (h : peer.Orderly localUrl) {run : Nat} {sawNew : Bool}
    (hbegun : peer.Begun run)
    (hnew : sawNew = true → Grown peer.gossip peer.knownDBs run ∧
      peer.gossip.countP Gossip.isRebroadcast + peer.syncs.length + 1 < peer.knownDBs.length)
    (urls : List Json) : (syncLoop run sawNew urls peer).Orderly localUrl := by
  rcases sync_loop_cases run sawNew urls peer with hend | ⟨url, rest, -, hknows, hloop⟩
  · rw [hend]
    split
    · next hsaw => exact h.rebroadcast (hnew hsaw).1 (hnew hsaw).2
    · exact h
  · rw [hloop]
    exact h.new_db hbegun hknows rest

/-- What goes on at the topic does not matter. -/
theorem Peer.Orderly.topic (h : peer.Orderly localUrl) (topic : Topic) :
    Peer.Orderly localUrl { peer with topic := topic } :=
  ⟨h.localFirst, h.distinct, h.started, h.numbered, h.grown, h.justified, h.paid⟩

/-- A `-sync` message keeps a peer orderly. -/
theorem Peer.Orderly.on_sync (h : peer.Orderly localUrl) (message : Json) :
    (onSync message peer).Orderly localUrl := by
  unfold onSync
  dsimp only
  split
  · refine h.begin.sync_loop ?_ (fun hsaw => by cases hsaw) _
    exact ⟨peer.knownDBs, List.mem_append_right _ List.mem_cons_self, List.prefix_refl _⟩
  · exact h.begin.note _ rfl rfl rfl

/-- A run that waited goes on: what it waited for is still to be started, and a broadcast is paid
for. -/
theorem Peer.Orderly.taken (h : peer.Orderly localUrl) {i : Nat} {sync : Sync}
    (hsync : peer.syncs[i]? = some sync) :
    Peer.Orderly localUrl { peer with syncs := peer.syncs.eraseIdx i } ∧
      Grown peer.gossip peer.knownDBs sync.run ∧
      (peer.gossip.filterMap Gossip.added ++
        (sync.fetching.toList ++ (peer.syncs.eraseIdx i).filterMap Sync.fetching)).Subperm
          peer.knownDBs.tail ∧
      peer.gossip.countP Gossip.isRebroadcast + (peer.syncs.eraseIdx i).length + 1 <
        peer.knownDBs.length := by
  obtain ⟨hi, hget⟩ := List.getElem?_eq_some_iff.mp hsync
  have hperm : (sync :: peer.syncs.eraseIdx i).Perm peer.syncs := by
    rw [← hget]
    exact List.getElem_cons_eraseIdx_perm hi
  have hfetching : (sync.fetching.toList ++
      (peer.syncs.eraseIdx i).filterMap Sync.fetching).Perm
        (peer.syncs.filterMap Sync.fetching) := by
    have hmap := hperm.filterMap Sync.fetching
    rw [List.filterMap_cons] at hmap
    cases hf : sync.fetching with
    | none => simpa [hf] using hmap
    | some url => simpa [hf] using hmap
  have hstarted := (hfetching.append_left (peer.gossip.filterMap Gossip.added)).subperm.trans
    h.started
  have hlength : (peer.syncs.eraseIdx i).length + 1 = peer.syncs.length := hperm.length_eq
  have hpaid := h.paid
  refine ⟨⟨h.localFirst, h.distinct, ?_, h.numbered, ?_, h.justified, ?_⟩,
    h.grown sync (hget ▸ List.getElem_mem hi), hstarted, by omega⟩
  · refine List.Subperm.trans ?_ hstarted
    exact (List.subperm_append_left _).mpr (List.sublist_append_right ..).subperm
  · exact fun other hother => h.grown other (List.mem_of_mem_eraseIdx hother)
  · dsimp only
    omega

/-- An input that a run waited for is started. -/
theorem Peer.Orderly.add_input (h : peer.Orderly localUrl) {run : Nat} {url : Json}
    (hgrown : Grown peer.gossip peer.knownDBs run)
    (hstarted : (peer.gossip.filterMap Gossip.added ++
      ([url] ++ peer.syncs.filterMap Sync.fetching)).Subperm peer.knownDBs.tail)
    (hpaid : peer.gossip.countP Gossip.isRebroadcast + peer.syncs.length + 1 <
      peer.knownDBs.length) (rest : List Json) :
    Peer.Orderly localUrl
      { peer.note (.addInput url) with syncs := peer.syncs ++ [.add run rest] } where
  localFirst := h.localFirst
  distinct := h.distinct
  started := by
    show List.Subperm ((peer.gossip ++ [_]).filterMap Gossip.added ++
      (peer.syncs ++ [_]).filterMap Sync.fetching) _
    rw [List.filterMap_append, List.filterMap_append, List.append_assoc]
    exact (List.append_nil (peer.syncs.filterMap Sync.fetching)).symm ▸ hstarted
  numbered := by
    show (peer.gossip ++ [_]).filterMap Gossip.begun = _
    rw [filter_map_concat rfl]
    exact h.numbered
  grown sync hsync := by
    rcases List.mem_append.mp hsync with hsync | hsync
    · exact (h.grown sync hsync).note _
    · rw [List.mem_singleton.mp hsync]
      exact hgrown.note _
  justified := h.justified.concat fun run urls heffect => by cases heffect
  paid := by
    show (peer.gossip ++ [_]).countP Gossip.isRebroadcast + (peer.syncs ++ [_]).length < _
    rw [List.countP_append, List.length_append]
    show _ + 0 + (_ + 1) < peer.knownDBs.length
    omega

/-- One step. -/
theorem Peer.Orderly.step (platform : Platform) (h : peer.Orderly localUrl) (input : PeerInput) :
    (stepPeer platform peer input).Orderly localUrl := by
  cases input with
  | topic input => exact h.topic _
  | sync message => exact h.on_sync message
  | requestSync => exact h.note _ rfl rfl rfl
  | peerAdd => exact (h.note .requestSync rfl rfl rfl).note _ rfl rfl rfl
  | resume i result =>
      unfold stepPeer
      dsimp only
      split
      · exact h
      · next sync hsync =>
        obtain ⟨htaken, hgrown, hstarted, hpaid⟩ := h.taken hsync
        cases result with
        | error thrown => exact htaken.note _ rfl rfl rfl
        | ok _ =>
            cases sync with
            | get run url rest => exact htaken.add_input hgrown hstarted hpaid rest
            | add run rest =>
                obtain ⟨known, hbegan, hknown, -⟩ := id hgrown
                exact (htaken.topic (queryAll peer.topic)).sync_loop
                  ⟨known, hbegan, hknown⟩ (fun _ => ⟨hgrown, hpaid⟩) rest

/-- So does every run. -/
theorem Peer.Orderly.run (platform : Platform) (h : peer.Orderly localUrl)
    (inputs : List PeerInput) : (runPeer platform peer inputs).Orderly localUrl := by
  unfold runPeer
  induction inputs generalizing peer with
  | nil => exact h
  | cons input inputs ih => exact ih (h.step platform input)

/-- It is orderly at the start. -/
theorem orderly_start (localUrl : Bytes) (topic : Topic) :
    (Peer.start localUrl topic).Orderly localUrl := by
  have hfirst : Peer.Orderly localUrl ⟨topic, [.str localUrl], 0, [], []⟩ :=
    { localFirst := rfl
      distinct := List.pairwise_singleton ..
      started := List.nil_subperm
      numbered := rfl
      grown := fun _ hsync => absurd hsync List.not_mem_nil
      justified := fun before _ _ _ heq => by simp at heq
      paid := Nat.one_pos }
  exact (hfirst.note .requestSync rfl rfl rfl).note _ rfl rfl rfl

end

/-! ## The set of known databases -/

/-- The loop forgets no database. -/
theorem known_sync_loop (run : Nat) (sawNew : Bool) (urls : List Json) (peer : Peer) :
    peer.knownDBs <+: (syncLoop run sawNew urls peer).knownDBs := by
  rcases sync_loop_cases run sawNew urls peer with hend | ⟨url, rest, -, -, hloop⟩
  · rw [hend]
    split
    · exact List.prefix_refl _
    · exact List.prefix_refl _
  · rw [hloop]
    exact List.prefix_append ..

/-- One step forgets no database. -/
theorem known_step (platform : Platform) (peer : Peer) (input : PeerInput) :
    peer.knownDBs <+: (stepPeer platform peer input).knownDBs := by
  cases input with
  | topic input => exact List.prefix_refl _
  | sync message =>
      show _ <+: (onSync message peer).knownDBs
      unfold onSync
      dsimp only
      split
      · exact known_sync_loop _ _ _ { peer.note (.began peer.runs peer.knownDBs) with
          runs := peer.runs + 1 }
      · exact List.prefix_refl _
  | requestSync => exact List.prefix_refl _
  | peerAdd => exact List.prefix_refl _
  | resume i result =>
      unfold stepPeer
      dsimp only
      split
      · exact List.prefix_refl _
      · next sync _ =>
        cases result with
        | error thrown => exact List.prefix_refl _
        | ok _ =>
            cases sync with
            | get run url rest => exact List.prefix_refl _
            | add run rest =>
                exact known_sync_loop run true rest { peer with
                  topic := queryAll peer.topic, syncs := peer.syncs.eraseIdx i }

/-- Nor does a run. -/
theorem known_run (platform : Platform) (peer : Peer) (inputs : List PeerInput) :
    peer.knownDBs <+: (runPeer platform peer inputs).knownDBs := by
  unfold runPeer
  induction inputs generalizing peer with
  | nil => exact List.prefix_refl _
  | cons input inputs ih => exact (known_step platform peer input).trans (ih _)

/-! ## The topic -/

/-- The loop does not touch the topic. -/
theorem topic_sync_loop (run : Nat) (sawNew : Bool) (urls : List Json) (peer : Peer) :
    (syncLoop run sawNew urls peer).topic = peer.topic := by
  rcases sync_loop_cases run sawNew urls peer with hend | ⟨url, rest, -, -, hloop⟩
  · rw [hend]
    split
    · rfl
    · rfl
  · rw [hloop]
    rfl

/-- The databases of others change nothing at the topic but that queries are made. -/
theorem topic_step (platform : Platform) (peer : Peer) (input : PeerInput) :
    (∃ i, input = .topic i ∧ (stepPeer platform peer input).topic = step platform peer.topic i) ∨
      (stepPeer platform peer input).topic = peer.topic ∨
      (stepPeer platform peer input).topic = queryAll peer.topic := by
  cases input with
  | topic input => exact .inl ⟨input, rfl, rfl⟩
  | sync message =>
      refine .inr (.inl ?_)
      show (onSync message peer).topic = _
      unfold onSync
      dsimp only
      split
      · exact topic_sync_loop ..
      · rfl
  | requestSync => exact .inr (.inl rfl)
  | peerAdd => exact .inr (.inl rfl)
  | resume i result =>
      unfold stepPeer
      dsimp only
      split
      · exact .inr (.inl rfl)
      · next sync _ =>
        cases result with
        | error thrown => exact .inr (.inl rfl)
        | ok _ =>
            cases sync with
            | get run url rest => exact .inr (.inl rfl)
            | add run rest => exact .inr (.inr (topic_sync_loop ..))

/-- A peer keeps every event verified that its topic does. -/
theorem Verified.run_peer {platform : Platform} (hid : platform.IgnoresId) {peer : Peer}
    (h : Verified platform.toEngine peer.topic) {inputs : List PeerInput}
    (hinputs : ∀ i, .topic i ∈ inputs → i.Passes platform.toEngine) :
    Verified platform.toEngine (runPeer platform peer inputs).topic := by
  unfold runPeer
  induction inputs generalizing peer with
  | nil => exact h
  | cons input inputs ih =>
      refine ih ?_ fun i hi => hinputs i (List.mem_cons_of_mem _ hi)
      rcases topic_step platform peer input with ⟨i, rfl, htopic⟩ | htopic | htopic
      · rw [htopic]
        exact h.step hid (hinputs i List.mem_cons_self)
      · rw [htopic]
        exact h
      · rw [htopic]
        refine ⟨h.docs, fun task htask => ?_, h.log⟩
        rcases List.mem_append.mp htask with htask | htask
        · exact h.tasks task htask
        · obtain ⟨entry, -, rfl⟩ := List.mem_map.mp htask
          exact fun event hevent => absurd hevent List.not_mem_nil

/-- `validateEvent` is a check exactly for the events that pass it. In a run in which all events
that come in pass, every event that is stored, written or sent passes. The collection of these runs
is the peer's own: documents that come with the databases of others are no part of them. -/
theorem only_verified_events (platform : Platform) (hid : platform.IgnoresId) :
    (∀ (event : Json) (filters : Option (List Json)),
      (validateEvent platform.toEngine (some event) filters = .ok true → platform.Passes event) ↔
        platform.Passes event) ∧
    ∀ (localUrl : Bytes) (events : Collection),
      (∀ doc ∈ events.docs, platform.Passes doc.event) →
      ∀ inputs : List PeerInput, (∀ i, .topic i ∈ inputs → i.Passes platform.toEngine) →
      Verified platform.toEngine
        (runPeer platform (Peer.start localUrl (Topic.start events)) inputs).topic := by
  constructor
  · intro event filters
    constructor
    · intro h
      by_contra hfails
      exact hfails (h (validate_event_of_fails hfails filters))
    · intro h _
      exact h
  · intro localUrl events hdocs inputs hinputs
    have hstart : Verified platform.toEngine (Peer.start localUrl (Topic.start events)).topic :=
      ⟨hdocs, fun _ h => absurd h List.not_mem_nil, fun _ h => absurd h List.not_mem_nil⟩
    exact hstart.run_peer hid hinputs

/-- The note is let in, and everything the relay does with it is verified. -/
theorem only_verified_events_hello :
    Verified samplePlatform.toEngine (runPeer samplePlatform (Peer.start [] (Topic.start ⟨[], 0⟩))
      [.topic (.frame 0 (some (.arr [.str (ascii "EVENT"), noteWith "hello"])))]).topic := by
  refine (only_verified_events samplePlatform ignores_id_sample).2 [] ⟨[], 0⟩
    (fun _ h => absurd h List.not_mem_nil) _ fun input hinput => ?_
  rw [PeerInput.topic.inj (List.mem_singleton.mp hinput)]
  intro items event hitems _ hevent
  obtain rfl := Except.ok.inj hitems
  obtain rfl := Option.some.inj hevent
  exact ⟨rfl, rfl⟩

/-- A note with another content is stored and sent to a subscription. -/
theorem forged_event_enters :
    ¬ ∀ (platform : Platform), platform.IgnoresId → ∀ inputs : List Input,
      ∀ effect ∈ (run platform (Topic.start ⟨[], 0⟩) inputs).log,
      ∀ event ∈ effect.events, platform.Passes event := by
  intro h
  have hverified := h samplePlatform ignores_id_sample
    [.frame 0 (some (.arr [.str (ascii "REQ"), .str (ascii "sub"), .obj []])),
      .frame 1 (some (.arr [.str (ascii "EVENT"), noteWith "forged"]))]
  have hforged : (run samplePlatform (Topic.start ⟨[], 0⟩)
      [.frame 0 (some (.arr [.str (ascii "REQ"), .str (ascii "sub"), .obj []])),
        .frame 1 (some (.arr [.str (ascii "EVENT"), noteWith "forged"]))]).log.any
      (fun effect => effect.events.any fun event => !sampleVerify (some event)) = true :=
    rfl
  obtain ⟨effect, heffect, hevents⟩ := List.any_eq_true.mp hforged
  obtain ⟨event, hevent, hfails⟩ := List.any_eq_true.mp hevents
  have hpasses : sampleVerify (some event) = true := (hverified effect heffect event hevent).2
  simp [hpasses] at hfails

/-! ## Finitely many urls -/

/-- The urls of a list are in a set. -/
def Mentioned (U : Finset Bytes) (urls : List Json) : Prop :=
  ∀ url ∈ urls, ∃ u ∈ U, url = .str u

/-- The message that comes in mentions no other urls. -/
def PeerInput.Mentions (U : Finset Bytes) : PeerInput → Prop
  | .sync message => ∀ urls, iterate (some message) = .ok urls → Mentioned U urls
  | _ => True

/-- The other databases a peer knows or is going to look at are in a set. -/
structure Peer.Within (U : Finset Bytes) (peer : Peer) : Prop where
  known : Mentioned U peer.knownDBs.tail
  rest : ∀ sync ∈ peer.syncs, Mentioned U sync.rest

section

variable {U : Finset Bytes} {peer : Peer}

/-- Noting an effect brings in no url. -/
theorem Peer.Within.note (h : peer.Within U) (effect : Gossip) : (peer.note effect).Within U :=
  ⟨h.known, h.rest⟩

/-- Nor does the loop, beyond those it goes over. -/
theorem Peer.Within.sync_loop (h : peer.Within U) (run : Nat) (sawNew : Bool) {urls : List Json}
    (hurls : Mentioned U urls) : (syncLoop run sawNew urls peer).Within U := by
  rcases sync_loop_cases run sawNew urls peer with hend | ⟨url, rest, hsuffix, -, hloop⟩
  · rw [hend]
    split
    · exact h.note _
    · exact h
  · rw [hloop]
    have hurl := hurls url (hsuffix.subset List.mem_cons_self)
    have hrest : Mentioned U rest := fun u hu =>
      hurls u (hsuffix.subset (List.mem_cons_of_mem _ hu))
    constructor
    · intro known hknown
      have hcases : known ∈ peer.knownDBs.tail ∨ known = url := by
        cases hdbs : peer.knownDBs with
        | nil => simp [handleNewDB, hdbs] at hknown
        | cons first dbs =>
            simp only [handleNewDB, hdbs, List.cons_append, List.tail_cons, List.mem_append,
              List.mem_singleton] at hknown
            exact hknown
      rcases hcases with hknown | rfl
      · exact h.known known hknown
      · exact hurl
    · exact forall_mem_concat h.rest hrest

/-- A step brings in those of its input. -/
theorem Peer.Within.step (platform : Platform) (h : peer.Within U) {input : PeerInput}
    (hinput : input.Mentions U) : (stepPeer platform peer input).Within U := by
  cases input with
  | topic input => exact ⟨h.known, h.rest⟩
  | sync message =>
      show (onSync message peer).Within U
      have hbegun : Peer.Within U { peer.note (.began peer.runs peer.knownDBs) with
          runs := peer.runs + 1 } := ⟨h.known, h.rest⟩
      unfold onSync
      dsimp only
      split
      · next urls hurls => exact hbegun.sync_loop _ _ (hinput urls hurls)
      · exact hbegun.note _
  | requestSync => exact h.note _
  | peerAdd => exact (h.note .requestSync).note _
  | resume i result =>
      unfold stepPeer
      dsimp only
      split
      · exact h
      · next sync hsync =>
        have hmem : sync ∈ peer.syncs := List.mem_of_getElem? hsync
        have htaken : Peer.Within U { peer with syncs := peer.syncs.eraseIdx i } :=
          ⟨h.known, fun other hother => h.rest other (List.mem_of_mem_eraseIdx hother)⟩
        cases result with
        | error thrown => exact htaken.note _
        | ok _ =>
            cases sync with
            | get run url rest =>
                have hrest : Mentioned U rest := h.rest _ hmem
                exact ⟨htaken.known, forall_mem_concat htaken.rest hrest⟩
            | add run rest =>
                have hrest : Mentioned U rest := h.rest _ hmem
                have hqueried : Peer.Within U { peer with
                    topic := queryAll peer.topic, syncs := peer.syncs.eraseIdx i } :=
                  ⟨htaken.known, htaken.rest⟩
                exact hqueried.sync_loop run true hrest

/-- And a run those of its inputs. -/
theorem Peer.Within.run (platform : Platform) (h : peer.Within U) {inputs : List PeerInput}
    (hinputs : ∀ input ∈ inputs, input.Mentions U) : (runPeer platform peer inputs).Within U := by
  unfold runPeer
  induction inputs generalizing peer with
  | nil => exact h
  | cons input inputs ih =>
      exact ih (h.step platform (hinputs input List.mem_cons_self)) fun i hi =>
        hinputs i (List.mem_cons_of_mem _ hi)

/-- Different urls of a set are no more than there are in the set. -/
theorem length_le_card {urls : List Json} (hdifferent : urls.Pairwise Different)
    (h : Mentioned U urls) : urls.length ≤ U.card := by
  induction urls generalizing U with
  | nil => exact Nat.zero_le _
  | cons url urls ih =>
      obtain ⟨hfirst, hrest⟩ := List.pairwise_cons.mp hdifferent
      obtain ⟨u, hu, rfl⟩ := h url List.mem_cons_self
      have hothers : Mentioned (U.erase u) urls := by
        intro url' hurl'
        obtain ⟨u', hu', rfl⟩ := h url' (List.mem_cons_of_mem _ hurl')
        refine ⟨u', Finset.mem_erase.mpr ⟨?_, hu'⟩, rfl⟩
        rintro rfl
        exact absurd (hfirst _ hurl') (by simp [Different, strictEqual])
      have hlength := ih hrest hothers
      rw [Finset.card_erase_of_mem hu] at hlength
      have hpos : 0 < U.card := Finset.card_pos.mpr ⟨u, hu⟩
      rw [List.length_cons]
      omega

end

/-- A peer in any surroundings. -/
theorem run_peer_start (platform : Platform) (localUrl : Bytes) (topic : Topic)
    (inputs : List PeerInput) {peer : Peer}
    (hpeer : runPeer platform (Peer.start localUrl topic) inputs = peer) :
    (peer.gossip.filterMap Gossip.added).Pairwise Different ∧
      (∀ url ∈ peer.gossip.filterMap Gossip.added, Different (.str localUrl) url) ∧
      (peer.gossip.filterMap Gossip.begun).Nodup ∧ Justified peer.gossip ∧
      ∀ U : Finset Bytes, (∀ input ∈ inputs, input.Mentions U) →
        peer.gossip.countP Gossip.isRebroadcast ≤ U.card := by
  have horderly := (orderly_start localUrl topic).run platform inputs
  rw [hpeer] at horderly
  obtain ⟨dbs, hdbs⟩ : ∃ dbs, peer.knownDBs = .str localUrl :: dbs :=
    ⟨_, (List.cons_head?_tail horderly.localFirst).symm⟩
  have hdistinct := horderly.distinct
  rw [hdbs] at hdistinct
  obtain ⟨hlocal, hothers⟩ := List.pairwise_cons.mp hdistinct
  have hadded : (peer.gossip.filterMap Gossip.added).Subperm dbs := by
    have hstarted := horderly.started
    rw [hdbs] at hstarted
    exact (List.sublist_append_left ..).subperm.trans hstarted
  refine ⟨?_, fun url hurl => hlocal url (hadded.subset hurl), ?_, horderly.justified,
    fun U hinputs => ?_⟩
  · obtain ⟨urls, hperm, hsublist⟩ := hadded
    exact hperm.pairwise (hothers.sublist hsublist) fun h => h.symm
  · rw [horderly.numbered]
    exact List.nodup_range
  · have hwithin : peer.Within U := by
      rw [← hpeer]
      refine Peer.Within.run platform ⟨?_, ?_⟩ hinputs
      · exact fun _ h => absurd h List.not_mem_nil
      · exact fun _ h => absurd h List.not_mem_nil
    have hknown := hwithin.known
    rw [hdbs] at hknown
    have hcard : dbs.length ≤ U.card := length_le_card hothers hknown
    have hpaid := horderly.paid
    rw [hdbs, List.length_cons] at hpaid
    omega

/-! ## Networks -/

section

variable {ι : Type} [DecidableEq ι]

/-- A run of a network: what goes on at its peers, in any order. -/
def runNetwork (platform : Platform) (peers : ι → Peer) (inputs : List (ι × PeerInput)) :
    ι → Peer :=
  inputs.foldl (fun peers input =>
    Function.update peers input.1 (stepPeer platform (peers input.1) input.2)) peers

/-- What goes on at one peer. -/
def inputsAt (i : ι) (inputs : List (ι × PeerInput)) : List PeerInput :=
  (inputs.filter fun input => input.1 = i).map Prod.snd

/-- A peer of a network makes its own steps. -/
theorem run_network_at (platform : Platform) (peers : ι → Peer) (inputs : List (ι × PeerInput))
    (i : ι) :
    runNetwork platform peers inputs i = runPeer platform (peers i) (inputsAt i inputs) := by
  unfold runNetwork
  induction inputs generalizing peers with
  | nil => rfl
  | cons input inputs ih =>
      rw [List.foldl_cons, ih]
      by_cases hi : input.1 = i
      · subst hi
        simp [inputsAt, runPeer]
      · simp [inputsAt, hi, Function.update_of_ne (Ne.symm hi)]

/-- In every run of a network and at every peer of it: every url is added at most once, and the
peer's own never; the set of known databases only grows; every broadcast of the handler comes after
it has grown in that run; and if the messages mention the urls of a finite set, there are no more
such broadcasts than urls. -/
theorem gossip_dies_out (platform : Platform) (localUrl : ι → Bytes) (topic : ι → Topic)
    (inputs : List (ι × PeerInput)) (i : ι) :
    let network := runNetwork platform fun j => Peer.start (localUrl j) (topic j)
    ((network inputs i).gossip.filterMap Gossip.added).Pairwise Different ∧
      (∀ url ∈ (network inputs i).gossip.filterMap Gossip.added,
        Different (.str (localUrl i)) url) ∧
      (∀ more, (network inputs i).knownDBs <+: (network (inputs ++ more) i).knownDBs) ∧
      ((network inputs i).gossip.filterMap Gossip.begun).Nodup ∧
      Justified (network inputs i).gossip ∧
      ∀ U : Finset Bytes, (∀ input ∈ inputs, input.2.Mentions U) →
        (network inputs i).gossip.countP Gossip.isRebroadcast ≤ U.card := by
  intro network
  have hpeer := run_network_at platform (fun j => Peer.start (localUrl j) (topic j)) inputs i
  obtain ⟨honce, hothers, hnumbered, hjustified, hcount⟩ :=
    run_peer_start platform (localUrl i) (topic i) (inputsAt i inputs) hpeer.symm
  refine ⟨honce, hothers, fun more => ?_, hnumbered, hjustified, fun U hinputs => hcount U ?_⟩
  · have hmore : network (inputs ++ more) i =
        runPeer platform (network inputs i) (inputsAt i more) := by
      rw [← run_network_at platform (network inputs) more i]
      exact congrFun List.foldl_append i
    rw [hmore]
    exact known_run platform (network inputs i) (inputsAt i more)
  · intro input hinput
    obtain ⟨pair, hpair, rfl⟩ := List.mem_map.mp hinput
    exact hinputs pair (List.mem_of_mem_filter hpair)

end

end Gnostr.Swarm
