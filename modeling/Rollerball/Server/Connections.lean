import Mathlib.Data.Finset.Card
import Mathlib.Data.List.Nodup
import Mathlib.Data.List.Sublists
import Mathlib.Logic.Function.Basic
import Mathlib.Logic.Relation

/-!
# The open connections

The server lists weak handles, to connections that may expire at any moment. Closing a connection
sweeps the list under its lock, looking at each handle twice. Between sweeps the list holds every
living connection that is open, none that is closed and none twice, and a broadcast goes down it
until it meets a connection that can no longer be written to.
-/

namespace Rollerball

/-- What has become of a connection: it can be written to, is shutting down, or is gone. -/
inductive ConnState
  | connected
  | leaving
  | expired
  deriving DecidableEq

/-- `onClose` between the lock of its mutex and the `resize`: the closed handle, what it locked to,
what `remove_if` has kept, what it has still to look at, and whether it has found the first of
these not expired. -/
structure Sweep (Id : Type) where
  conn : Id
  connVal : Option Id
  kept : List Id
  rest : List Id
  checked : Bool

/-- The list of a `WebsocketServer`, the state of every connection and the sweep under way. What has
been opened and closed is recorded; no step depends on it but for opening and closing once. -/
structure Hub (Id : Type) where
  openConnections : List Id
  state : Id → ConnState
  sweep : Option (Sweep Id)
  opened : List Id
  closed : List Id

namespace Hub

variable {Id : Type} [DecidableEq Id]

def start : Hub Id := ⟨[], fun _ => .expired, none, [], []⟩

/-- `weak_ptr::lock` -/
def lock (h : Hub Id) (c : Id) : Option Id := if h.state c = .expired then none else some c

def numConnections (h : Hub Id) : Nat := h.openConnections.length

structure Broadcast (Id : Type) where
  sent : List Id
  threw : Bool

/-- `sendMessage` throws on a handle that has expired or is no longer open. -/
def sendAll (state : Id → ConnState) : List Id → Broadcast Id
  | [] => ⟨[], false⟩
  | c :: cs =>
    if state c = .connected then
      let rest := sendAll state cs
      ⟨c :: rest.sent, rest.threw⟩
    else ⟨[], true⟩

def broadcastMessage (h : Hub Id) : Broadcast Id := sendAll h.state h.openConnections

/-- A step of the server. The mutex keeps `onOpen` and `onClose` out of a sweep; connections leave
and expire in the middle of it, except for the closed one if the sweep has locked it. -/
inductive Step : Hub Id → Hub Id → Prop
  | onOpen {h : Hub Id} (c : Id) (hfree : h.sweep = none) (hnew : c ∉ h.opened) :
      Step h { h with
        openConnections := h.openConnections ++ [c]
        state := Function.update h.state c .connected
        opened := h.opened ++ [c] }
  | leave {h : Hub Id} (c : Id) (hstate : h.state c = .connected) :
      Step h { h with state := Function.update h.state c .leaving }
  | expire {h : Hub Id} (c : Id) (hheld : ∀ w, h.sweep = some w → w.connVal ≠ some c) :
      Step h { h with state := Function.update h.state c .expired }
  | onClose {h : Hub Id} (c : Id) (hfree : h.sweep = none) (hopened : c ∈ h.opened)
      (hclosed : c ∉ h.closed) :
      Step h { h with
        sweep := some ⟨c, h.lock c, [], h.openConnections, false⟩
        closed := h.closed ++ [c] }
  | dropExpired {h : Hub Id} {w : Sweep Id} {x : Id} {xs : List Id} (hsweep : h.sweep = some w)
      (hrest : w.rest = x :: xs) (hchecked : w.checked = false) (hx : h.state x = .expired) :
      Step h { h with sweep := some { w with rest := xs } }
  | check {h : Hub Id} {w : Sweep Id} {x : Id} {xs : List Id} (hsweep : h.sweep = some w)
      (hrest : w.rest = x :: xs) (hchecked : w.checked = false) (hx : h.state x ≠ .expired) :
      Step h { h with sweep := some { w with checked := true } }
  | dropSame {h : Hub Id} {w : Sweep Id} {x : Id} {xs : List Id} (hsweep : h.sweep = some w)
      (hrest : w.rest = x :: xs) (hchecked : w.checked = true) (hx : h.lock x = w.connVal) :
      Step h { h with sweep := some { w with rest := xs, checked := false } }
  | keep {h : Hub Id} {w : Sweep Id} {x : Id} {xs : List Id} (hsweep : h.sweep = some w)
      (hrest : w.rest = x :: xs) (hchecked : w.checked = true) (hx : h.lock x ≠ w.connVal) :
      Step h { h with
        sweep := some { w with kept := w.kept ++ [x], rest := xs, checked := false } }
  | resize {h : Hub Id} {w : Sweep Id} (hsweep : h.sweep = some w) (hrest : w.rest = []) :
      Step h { h with openConnections := w.kept, sweep := none }

def Reached (h : Hub Id) : Prop := Relation.ReflTransGen Step start h

structure Sweeping (h : Hub Id) (w : Sweep Id) : Prop where
  closed : w.conn ∈ h.closed
  locked : w.connVal = h.lock w.conn
  sublist : (w.kept ++ w.rest).Sublist h.openConnections
  dropped : ∀ c ∈ h.openConnections, c ∉ w.kept ++ w.rest → c = w.conn ∨ h.state c = .expired
  kept : w.conn ∉ w.kept
  others : ∀ c ∈ h.openConnections, c ∈ h.closed → c = w.conn

structure Inv (h : Hub Id) : Prop where
  opened : h.opened.Nodup
  closed : h.closed.Nodup
  subset : h.closed ⊆ h.opened
  sublist : h.openConnections.Sublist h.opened
  living : ∀ c ∈ h.opened, c ∉ h.closed → h.state c ≠ .expired → c ∈ h.openConnections
  free : h.sweep = none → ∀ c ∈ h.openConnections, c ∉ h.closed
  sweeping : ∀ w, h.sweep = some w → h.Sweeping w

section Invariant

variable {h h' : Hub Id} {w : Sweep Id} {c x : Id} {xs : List Id}

omit [DecidableEq Id] in
theorem Inv.start : (start : Hub Id).Inv where
  opened := List.nodup_nil
  closed := List.nodup_nil
  subset := fun _ => id
  sublist := List.Sublist.refl _
  living := fun _ hc => absurd hc List.not_mem_nil
  free := fun _ _ hc => absurd hc List.not_mem_nil
  sweeping := nofun

theorem Inv.onOpen (hinv : h.Inv) (hfree : h.sweep = none) (hnew : c ∉ h.opened) :
    Inv { h with
      openConnections := h.openConnections ++ [c]
      state := Function.update h.state c .connected
      opened := h.opened ++ [c] } where
  opened := hinv.opened.append (List.nodup_singleton c) (by simpa using hnew)
  closed := hinv.closed
  subset := fun d hd => List.mem_append_left _ (hinv.subset hd)
  sublist := hinv.sublist.append (List.Sublist.refl [c])
  living := by
    intro d hd hclosed hstate
    rcases List.mem_append.mp hd with hd | hd
    · have hne : d ≠ c := fun heq => hnew (heq ▸ hd)
      have hsame := Function.update_of_ne hne ConnState.connected h.state
      exact List.mem_append_left _ (hinv.living d hd hclosed fun hd' => hstate (hsame.trans hd'))
    · exact List.mem_append_right _ hd
  free := by
    intro _ d hd hclosed
    rcases List.mem_append.mp hd with hd | hd
    · exact hinv.free hfree d hd hclosed
    · rw [List.mem_singleton.mp hd] at hclosed
      exact hnew (hinv.subset hclosed)
  sweeping := fun w hw => by
    rw [hfree] at hw
    cases hw

omit [DecidableEq Id] in
theorem Inv.change (hinv : h.Inv) {state : Id → ConnState}
    (hlost : ∀ d, h.state d = .expired → state d = .expired)
    (hheld : ∀ w, h.sweep = some w → state w.conn = .expired → h.state w.conn = .expired) :
    Inv { h with state := state } where
  opened := hinv.opened
  closed := hinv.closed
  subset := hinv.subset
  sublist := hinv.sublist
  living := fun d hd hclosed hlive => hinv.living d hd hclosed fun hd' => hlive (hlost d hd')
  free := hinv.free
  sweeping := by
    intro w hw
    have hsweeping := hinv.sweeping w hw
    have hlock : h.lock w.conn = Hub.lock { h with state := state } w.conn :=
      if_congr ⟨hlost _, hheld w hw⟩ rfl rfl
    exact { hsweeping with
      locked := hsweeping.locked.trans hlock
      dropped := fun d hd hgone => (hsweeping.dropped d hd hgone).imp_right (hlost d) }

theorem Inv.leave (hinv : h.Inv) (hstate : h.state c = .connected) :
    Inv { h with state := Function.update h.state c .leaving } := by
  have hne : ∀ d, h.state d = .expired → d ≠ c := by
    rintro d hd rfl
    rw [hstate] at hd
    cases hd
  refine hinv.change (fun d hd => ?_) fun w hw hgone => ?_
  · rw [Function.update_of_ne (hne d hd), hd]
  · by_cases heq : w.conn = c
    · rw [heq, Function.update_self] at hgone
      cases hgone
    · rwa [Function.update_of_ne heq] at hgone

theorem Inv.expire (hinv : h.Inv) (hheld : ∀ w, h.sweep = some w → w.connVal ≠ some c) :
    Inv { h with state := Function.update h.state c .expired } := by
  refine hinv.change (fun d hd => ?_) fun w hw hgone => ?_
  · rw [Function.update_apply]
    split_ifs
    · rfl
    · exact hd
  · by_cases heq : w.conn = c
    · by_contra hlive
      refine hheld w hw ?_
      rw [(hinv.sweeping w hw).locked, lock, if_neg hlive, heq]
    · rwa [Function.update_of_ne heq] at hgone

omit [DecidableEq Id] in
theorem Inv.onClose (hinv : h.Inv) (hfree : h.sweep = none) (hopened : c ∈ h.opened)
    (hclosed : c ∉ h.closed) :
    Inv { h with
      sweep := some ⟨c, h.lock c, [], h.openConnections, false⟩
      closed := h.closed ++ [c] } where
  opened := hinv.opened
  closed := hinv.closed.append (List.nodup_singleton c) (by simpa using hclosed)
  subset := by
    intro d hd
    rcases List.mem_append.mp hd with hd | hd
    · exact hinv.subset hd
    · rwa [List.mem_singleton.mp hd]
  sublist := hinv.sublist
  living := fun d hd hnot hlive =>
    hinv.living d hd (fun hd' => hnot (List.mem_append_left _ hd')) hlive
  free := nofun
  sweeping := by
    rintro w ⟨⟩
    refine ⟨List.mem_append_right _ (List.mem_singleton_self c), rfl, List.Sublist.refl _,
      fun d hd hgone => absurd hd hgone, List.not_mem_nil, fun d hd hd' => ?_⟩
    rcases List.mem_append.mp hd' with hd' | hd'
    · exact absurd hd' (hinv.free hfree d hd)
    · exact List.mem_singleton.mp hd'

/-- A step of `remove_if` keeps what it should and drops what it may. -/
theorem Inv.advance (hinv : h.Inv) (hsweep : h.sweep = some w) {w' : Sweep Id}
    (hconn : w'.conn = w.conn) (hval : w'.connVal = w.connVal)
    (hsublist : (w'.kept ++ w'.rest).Sublist (w.kept ++ w.rest))
    (hdropped : ∀ d ∈ w.kept ++ w.rest, d ∉ w'.kept ++ w'.rest →
      d = w.conn ∨ h.state d = .expired)
    (hkept : w.conn ∉ w'.kept) : Inv { h with sweep := some w' } where
  opened := hinv.opened
  closed := hinv.closed
  subset := hinv.subset
  sublist := hinv.sublist
  living := hinv.living
  free := nofun
  sweeping := by
    rintro w'' ⟨⟩
    have hsweeping := hinv.sweeping w hsweep
    refine ⟨hconn ▸ hsweeping.closed, ?_, hsublist.trans hsweeping.sublist, ?_, hconn ▸ hkept,
      hconn ▸ hsweeping.others⟩
    · rw [hval, hconn]
      exact hsweeping.locked
    · intro d hd hgone
      rw [hconn]
      by_cases hd' : d ∈ w.kept ++ w.rest
      · exact hdropped d hd' hgone
      · exact hsweeping.dropped d hd hd'

theorem Inv.resize (hinv : h.Inv) (hsweep : h.sweep = some w) (hrest : w.rest = []) :
    Inv { h with openConnections := w.kept, sweep := none } := by
  have hsweeping := hinv.sweeping w hsweep
  have hsublist := hsweeping.sublist
  have hdropped := hsweeping.dropped
  rw [hrest, List.append_nil] at hsublist hdropped
  refine ⟨hinv.opened, hinv.closed, hinv.subset, hsublist.trans hinv.sublist, ?_, ?_, nofun⟩
  · intro d hd hclosed hlive
    by_contra hgone
    rcases hdropped d (hinv.living d hd hclosed hlive) hgone with rfl | hexpired
    · exact hclosed hsweeping.closed
    · exact hlive hexpired
  · intro _ d hd hclosed
    have heq := hsweeping.others d (hsublist.subset hd) hclosed
    rw [heq] at hd
    exact hsweeping.kept hd

omit [DecidableEq Id] in
/-- Two handles lock to the same if they are of one connection, or both have expired. -/
theorem lock_eq (h : Hub Id) {c d : Id} (heq : h.lock c = h.lock d) :
    c = d ∨ h.state c = .expired := by
  by_cases hc : h.state c = .expired
  · exact Or.inr hc
  · left
    rw [lock, if_neg hc, lock] at heq
    split_ifs at heq
    exact Option.some.inj heq

theorem Inv.step (hinv : h.Inv) (hstep : Step h h') : h'.Inv := by
  cases hstep with
  | onOpen c hfree hnew => exact hinv.onOpen hfree hnew
  | leave c hstate => exact hinv.leave hstate
  | expire c hheld => exact hinv.expire hheld
  | onClose c hfree hopened hclosed => exact hinv.onClose hfree hopened hclosed
  | @dropExpired w x xs hsweep hrest hchecked hx =>
    have hkept := (hinv.sweeping w hsweep).kept
    refine hinv.advance hsweep rfl rfl ?_ ?_ hkept
    · rw [hrest]
      exact List.Sublist.append_left (List.sublist_cons_self x xs) w.kept
    · intro d hd hgone
      simp only [hrest, List.mem_append, List.mem_cons, not_or] at hd hgone
      right
      rcases hd with hd | rfl | hd
      · exact absurd hd hgone.1
      · exact hx
      · exact absurd hd hgone.2
  | @check w x xs hsweep hrest hchecked hx =>
    exact hinv.advance hsweep rfl rfl (List.Sublist.refl _) (fun d hd hgone => absurd hd hgone)
      (hinv.sweeping w hsweep).kept
  | @dropSame w x xs hsweep hrest hchecked hx =>
    have hsweeping := hinv.sweeping w hsweep
    refine hinv.advance hsweep rfl rfl ?_ ?_ hsweeping.kept
    · rw [hrest]
      exact List.Sublist.append_left (List.sublist_cons_self x xs) w.kept
    · intro d hd hgone
      simp only [hrest, List.mem_append, List.mem_cons, not_or] at hd hgone
      rcases hd with hd | rfl | hd
      · exact absurd hd hgone.1
      · exact h.lock_eq (hx.trans hsweeping.locked)
      · exact absurd hd hgone.2
  | @keep w x xs hsweep hrest hchecked hx =>
    have hsweeping := hinv.sweeping w hsweep
    refine hinv.advance hsweep rfl rfl ?_ ?_ ?_
    · rw [hrest, List.append_assoc]
      exact List.Sublist.refl _
    · intro d hd hgone
      rw [hrest] at hd
      simp only [List.append_assoc, List.singleton_append] at hgone
      exact absurd hd hgone
    · intro hmem
      rcases List.mem_append.mp hmem with hmem | hmem
      · exact hsweeping.kept hmem
      · rw [List.mem_singleton] at hmem
        exact hx (by rw [← hmem, hsweeping.locked])
  | resize hsweep hrest => exact hinv.resize hsweep hrest

theorem Reached.inv (h' : Reached h) : h.Inv := by
  induction h' with
  | refl => exact .start
  | tail _ hstep ih => exact ih.step hstep

end Invariant

section Runs

variable {h : Hub Id} {c : Id}

/-- In every run, whenever no sweep is under way, the list holds every connection that has been
opened, is not closed and has not expired, in the order of opening and each once, and none that is
closed. If no connection expires before it is closed, `numConnections` counts the open ones. -/
theorem open_connections_tracked (hrun : Reached h) (hfree : h.sweep = none) :
    h.openConnections.Sublist h.opened ∧ h.openConnections.Nodup ∧
      (∀ c ∈ h.openConnections, c ∉ h.closed) ∧
      (∀ c ∈ h.opened, c ∉ h.closed → h.state c ≠ .expired → c ∈ h.openConnections) ∧
      ((∀ c ∈ h.opened, h.state c = .expired → c ∈ h.closed) →
        h.numConnections + h.closed.length = h.opened.length) := by
  have hinv := hrun.inv
  refine ⟨hinv.sublist, hinv.opened.sublist hinv.sublist, hinv.free hfree, hinv.living, ?_⟩
  intro hlate
  have hnodup : (h.openConnections ++ h.closed).Nodup :=
    (hinv.opened.sublist hinv.sublist).append hinv.closed fun c hc hc' => hinv.free hfree c hc hc'
  have hmem : ∀ c, c ∈ h.openConnections ++ h.closed ↔ c ∈ h.opened := by
    intro c
    constructor
    · intro hc
      rcases List.mem_append.mp hc with hc | hc
      · exact hinv.sublist.subset hc
      · exact hinv.subset hc
    · intro hc
      by_cases hclosed : c ∈ h.closed
      · exact List.mem_append_right _ hclosed
      · exact List.mem_append_left _
          (hinv.living c hc hclosed fun hexpired => hclosed (hlate c hc hexpired))
  rw [numConnections, ← List.length_append]
  exact ((List.perm_ext_iff_of_nodup hnodup hinv.opened).mpr hmem).length_eq

/-- Three clients connect. The first closes, and while its sweep looks at the second for the second
time that one expires and is kept; its own close finds it expired. -/
def swept : { h : Hub Nat // Reached h ∧ h.sweep = none } :=
  have hstart : Reached (start : Hub Nat) := .refl
  have hzero := hstart.tail (.onOpen 0 rfl List.not_mem_nil)
  have hone := hzero.tail (.onOpen 1 rfl (by decide))
  have htwo := hone.tail (.onOpen 2 rfl (by decide))
  have hleft := htwo.tail (.leave 0 rfl)
  have hclosed := hleft.tail (.onClose 0 rfl (by decide) (by decide))
  have hdropped := (hclosed.tail (.check rfl rfl rfl (by decide))).tail (.dropSame rfl rfl rfl rfl)
  have hchecked := hdropped.tail (.check rfl rfl rfl (by decide))
  have hexpired := hchecked.tail (.expire 1 (by rintro w ⟨⟩; decide))
  have hkept := hexpired.tail (.keep rfl rfl rfl (by decide))
  have hend := (hkept.tail (.check rfl rfl rfl (by decide))).tail (.keep rfl rfl rfl (by decide))
  have hagain := (hend.tail (.resize rfl rfl)).tail (.onClose 1 rfl (by decide) (by decide))
  have hgone := hagain.tail (.dropExpired rfl rfl rfl rfl)
  have hlast := (hgone.tail (.check rfl rfl rfl (by decide))).tail (.keep rfl rfl rfl (by decide))
  ⟨_, hlast.tail (.resize rfl rfl), rfl⟩

/-- The third client is listed, and nobody else. -/
theorem open_connections_tracked_swept :
    2 ∈ swept.val.openConnections ∧ 0 ∉ swept.val.openConnections ∧
      swept.val.numConnections + 2 = 3 := by
  obtain ⟨_, _, hclosed, hliving, hcount⟩ :=
    open_connections_tracked swept.property.1 swept.property.2
  refine ⟨hliving 2 (by decide) (by decide) (by decide), fun h => hclosed 0 h (by decide), ?_⟩
  exact hcount (by decide)

/-- Two clients connect and the first starts to leave. -/
def parting : { h : Hub Nat // Reached h ∧ h.sweep = none } :=
  have hfirst : Step start _ := .onOpen (0 : Nat) rfl List.not_mem_nil
  have hsecond : Step _ _ := .onOpen (1 : Nat) rfl (by decide)
  have hleave : Step _ _ := .leave (0 : Nat) rfl
  ⟨_, ((Relation.ReflTransGen.refl.tail hfirst).tail hsecond).tail hleave, rfl⟩

omit [DecidableEq Id] in
theorem mem_sendAll_iff {state : Id → ConnState} {l : List Id} (hl : l.Nodup) :
    c ∈ (sendAll state l).sent ↔
      c ∈ l ∧ state c = .connected ∧ ∀ d, [d, c].Sublist l → state d = .connected := by
  induction l with
  | nil => simp [sendAll]
  | cons x xs ih =>
    obtain ⟨hx, hxs⟩ := List.nodup_cons.mp hl
    have hbefore : ∀ d, [d, c].Sublist (x :: xs) ↔ [d, c].Sublist xs ∨ d = x ∧ c ∈ xs := by
      intro d
      rw [List.sublist_cons_iff]
      refine or_congr_right ?_
      simp [eq_comm]
    rw [sendAll]
    by_cases hstate : state x = .connected
    · rw [if_pos hstate]
      simp only [List.mem_cons, ih hxs, hbefore]
      constructor
      · rintro (rfl | ⟨hc, hconnected, hall⟩)
        · refine ⟨Or.inl rfl, hstate, fun d hd => ?_⟩
          rcases hd with hd | ⟨_, hc⟩
          · exact absurd (hd.subset (List.mem_cons_of_mem d List.mem_cons_self)) hx
          · exact absurd hc hx
        · refine ⟨Or.inr hc, hconnected, fun d hd => ?_⟩
          rcases hd with hd | ⟨rfl, _⟩
          · exact hall d hd
          · exact hstate
      · rintro ⟨rfl | hc, hconnected, hall⟩
        · exact Or.inl rfl
        · exact Or.inr ⟨hc, hconnected, fun d hd => hall d (Or.inl hd)⟩
    · rw [if_neg hstate]
      simp only [List.not_mem_nil, false_iff, List.mem_cons, hbefore]
      rintro ⟨rfl | hc, hconnected, hall⟩
      · exact hstate hconnected
      · exact hstate (hall x (Or.inr ⟨rfl, hc⟩))

omit [DecidableEq Id] in
theorem sendAll_sublist (state : Id → ConnState) (l : List Id) :
    (sendAll state l).sent.Sublist l := by
  induction l with
  | nil => exact List.Sublist.refl _
  | cons x xs ih =>
    rw [sendAll]
    split_ifs
    · exact ih.cons_cons x
    · exact List.nil_sublist _

theorem pair_sublist {l l' : List Id} {d : Id} (hl : l.Sublist l') (hl' : l'.Nodup) (hd : d ∈ l)
    (hc : c ∈ l) (hpair : [d, c].Sublist l') : [d, c].Sublist l := by
  have hfilter : l'.filter (· ∈ l) = l := by
    clear hd hc hpair
    induction hl with
    | slnil => rfl
    | @cons l l' x hl ih =>
      obtain ⟨hx, hl'⟩ := List.nodup_cons.mp hl'
      rw [List.filter_cons_of_neg (by simpa using fun hx' => hx (hl.subset hx')), ih hl']
    | @cons_cons l l' x hl ih =>
      obtain ⟨hx, hl'⟩ := List.nodup_cons.mp hl'
      have hrest : l'.filter (· ∈ x :: l) = l'.filter (· ∈ l) := by
        refine List.filter_congr fun y hy => ?_
        have hne : y ≠ x := fun heq => hx (heq ▸ hy)
        simp [hne]
      rw [List.filter_cons_of_pos (by simp), hrest, ih hl']
  have hkeep := hpair.filter (· ∈ l)
  rwa [hfilter, List.filter_eq_self.mpr (by simp [hd, hc])] at hkeep

/-- In every run a broadcast sends to no connection twice and to no closed one. An open connection
gets it exactly when none that was opened earlier and is still listed has been lost. -/
theorem broadcast_reaches_iff (hrun : Reached h) (hfree : h.sweep = none) :
    h.broadcastMessage.sent.Nodup ∧
      (∀ c ∈ h.broadcastMessage.sent, c ∈ h.opened ∧ c ∉ h.closed) ∧
      ∀ c ∈ h.opened, c ∉ h.closed → h.state c = .connected →
        (c ∈ h.broadcastMessage.sent ↔
          ∀ d ∈ h.openConnections, [d, c].Sublist h.opened → h.state d = .connected) := by
  have hinv := hrun.inv
  have hsublist := hinv.sublist
  have hnodup := hinv.opened.sublist hsublist
  have hclosed := hinv.free hfree
  have hsent := sendAll_sublist h.state h.openConnections
  refine ⟨hnodup.sublist hsent, fun c hc => ?_, fun c hc hnot hstate => ?_⟩
  · exact ⟨hsublist.subset (hsent.subset hc), hclosed c (hsent.subset hc)⟩
  · have hlisted := hinv.living c hc hnot (by rw [hstate]; nofun)
    rw [broadcastMessage, mem_sendAll_iff hnodup, and_iff_right hlisted, and_iff_right hstate]
    constructor
    · intro hall d hd hpair
      exact hall d (pair_sublist hsublist hinv.opened hd hlisted hpair)
    · intro hall d hpair
      exact hall d (hpair.subset List.mem_cons_self) (hpair.trans hsublist)

theorem broadcast_reaches_iff_parting : 1 ∉ parting.val.broadcastMessage.sent := by
  have hall := (broadcast_reaches_iff parting.property.1 parting.property.2).2.2 1 (by decide)
    (by decide) rfl
  rw [hall]
  intro hconnected
  exact absurd (hconnected 0 (by decide) (by decide)) (by decide)

end Runs

end Hub

end Rollerball
