import Mir.Orderers.Completion

/-!
# The timers of a view

`InitView` sets two timers whose delays double with every view. `computeTimeout` multiplies a signed
64-bit number by a shifted one, so the product is exact while it is below `2 ^ 63`
(`computeTimeout_eq`); beyond that the delay can be negative, and it is zero from view 64 on.

The views a node enters never go back (`MReachable.viewTimers_sound`), so the delays are positive and
never shrink in all runs that enter only views for which the products are exact (`viewTimers_grow`).
Views come from NewView messages and can be arbitrarily large.
-/

namespace Mir.Orderers

variable {env : Env} {p : ModuleParams} {K : Guards} {o o' : Orderer} {x : Output}
  {xs ys : List Output}

/-! ### The timers among the emitted events -/

/-- The delays of the timers that `InitView` sets for a view. -/
structure ViewTimers where
  view : ViewNr
  snDelay : ℤ
  segDelay : ℤ
  deriving DecidableEq

/-- The timers set by `InitView`, in order. A timer for the whole segment is set by `InitView` only, and
right after the timer for the next sequence number; the latter is also set after a decision. -/
def viewTimers : List Output → List ViewTimers
  | .timerDelay snDelay (.viewChangeSNTimeout _ _) ::
      .timerDelay segDelay (.viewChangeSegTimeout view) :: xs =>
    ⟨view, snDelay, segDelay⟩ :: viewTimers xs
  | _ :: xs => viewTimers xs
  | [] => []

/-- A timer for the whole segment. -/
def Output.isSegTimer : Output → Bool
  | .timerDelay _ (.viewChangeSegTimeout _) => true
  | _ => false

theorem viewTimers_cons (h : ∀ y ∈ xs.head?, y.isSegTimer = false) :
    viewTimers (x :: xs) = viewTimers xs := by
  rw [viewTimers]
  rintro _ _ _ _ _ _ _ rfl
  cases h _ rfl

theorem viewTimers_append (h : ∀ y ∈ ys.head?, y.isSegTimer = false) :
    viewTimers (xs ++ ys) = viewTimers xs ++ viewTimers ys := by
  induction xs using viewTimers.induct with
  | case1 snDelay view n segDelay view' xs ih =>
    rw [List.cons_append, List.cons_append, viewTimers, viewTimers, ih, List.cons_append]
  | case2 x xs hno ih =>
    cases xs with
    | nil =>
      rw [List.singleton_append, viewTimers_cons h, viewTimers_cons (by simp)]
      rfl
    | cons y xs =>
      rw [List.cons_append, viewTimers.eq_2 x (y :: xs) hno, ← ih, viewTimers.eq_2]
      rintro snDelay view n segDelay view' rest rfl hcons
      obtain ⟨rfl, -⟩ := List.cons.inj hcons
      exact hno snDelay view n segDelay view' xs rfl rfl
  | case3 => rfl

theorem viewTimers_append_other (h : ∀ y ∈ ys, y.isSegTimer = false) :
    viewTimers (xs ++ ys) = viewTimers xs := by
  have hnone : viewTimers ys = [] := by
    induction ys with
    | nil => rfl
    | cons y ys ih =>
      have htail := fun z hz => h z (List.mem_cons_of_mem y hz)
      rw [viewTimers_cons fun z hz => htail z (List.mem_of_mem_head? hz)]
      exact ih htail
  rw [viewTimers_append fun y hy => h y (List.mem_of_mem_head? hy), hnone, List.append_nil]

/-! ### The views of a run -/

/-- The timers of a view, as `InitView` computes them. -/
def timersOf (config : PBFTConfig) (view : ViewNr) : ViewTimers :=
  ⟨view, computeTimeout config.viewChangeSNTimeout view,
    computeTimeout config.viewChangeSegmentTimeout view⟩

/-- Starting a view sets its timers, unless it is the current one. -/
theorem viewTimers_initView {view : ViewNr} (h : initView p view o = .ok o') :
    viewTimers o'.out = viewTimers o.out ∨
      viewTimers o'.out = viewTimers o.out ++ [timersOf p.config view] := by
  rcases initView_cases h with ⟨-, -, rfl⟩ | ⟨-, slots, n, -, rfl⟩
  · exact .inl rfl
  · right
    rw [setViewTimers, Orderer.emit_out, Orderer.emit_out, List.append_assoc, viewTimers_append]
    · rfl
    · rintro y ⟨⟩
      rfl

theorem viewTimers_deliver (p : ModuleParams) (sn : SeqNr) (pp : Preprepare)
    {timer : Option TimerEvent} (htimer : ∀ event ∈ timer, ∃ view n, event = .viewChangeSNTimeout view n)
    (o : Orderer) : viewTimers (deliver p sn pp timer o).out = viewTimers o.out := by
  obtain ⟨chkp, xs, heq, hxs⟩ := deliver_spec p sn pp timer o
  rw [heq, viewTimers_append_other]
  refine forall_mem_concat (fun x hx => ?_) rfl
  cases hxs x hx with
  | timer hevent =>
    obtain ⟨view, n, rfl⟩ := htimer _ hevent
    rfl
  | done => rfl

/-- **The timers under an elementary step**: none are set, or those of the view that is entered. -/
theorem Micro.viewTimers_cases (h : Micro env p K o o') :
    viewTimers o'.out = viewTimers o.out ∨
      viewTimers o'.out = viewTimers o.out ++ [timersOf p.config o'.state.view] := by
  cases h with
  | emit x hx =>
    left
    refine viewTimers_append_other fun y hy => ?_
    rw [List.mem_singleton.mp hy]
    cases x with
    | timerDelay delay event =>
      obtain ⟨n, rfl⟩ := hx
      rfl
    | _ => rfl
  | slot sn slot slot' m x hslot hupdate =>
    left
    rw [Orderer.record_out]
    refine viewTimers_append_other fun y hy => ?_
    rw [Option.mem_toList] at hy
    cases hy
    cases hupdate <;> rfl
  | decide sn slot slot' m pp timer _ _ _ htimer => exact .inl (viewTimers_deliver p sn pp htimer _)
  | startView _ h | newView o₁ nv ord data _ _ _ h =>
    have htimers := viewTimers_initView h
    rw [← (initView_frame h).view] at htimers
    exact htimers
  | log | buffers | proposal | viewChangeState | nodeDone | catchingUp => exact .inl rfl

/-- The timers set so far are those of views that never went back, the last of which is not later than
the current one. -/
structure TimersSound (p : ModuleParams) (o : Orderer) : Prop where
  computed : ∀ t ∈ viewTimers o.out, t = timersOf p.config t.view
  current : ∀ t ∈ viewTimers o.out, t.view ≤ o.state.view
  ordered : (viewTimers o.out).Pairwise fun t t' => t.view ≤ t'.view

theorem TimersSound.of_cases (h : TimersSound p o) (hview : o.state.view ≤ o'.state.view)
    (hcases : viewTimers o'.out = viewTimers o.out ∨
      viewTimers o'.out = viewTimers o.out ++ [timersOf p.config o'.state.view]) :
    TimersSound p o' := by
  have hcurrent : ∀ t ∈ viewTimers o.out, t.view ≤ o'.state.view :=
    fun t ht => UInt64.le_trans (h.current t ht) hview
  rcases hcases with heq | heq
  · exact ⟨heq ▸ h.computed, heq ▸ hcurrent, heq ▸ h.ordered⟩
  · refine ⟨?_, ?_, ?_⟩ <;> rw [heq]
    · exact forall_mem_concat h.computed rfl
    · exact forall_mem_concat hcurrent (UInt64.le_refl _)
    · refine List.pairwise_append.mpr ⟨h.ordered, List.pairwise_singleton _ _, fun t ht t' ht' => ?_⟩
      rw [List.mem_singleton.mp ht']
      exact hcurrent t ht

theorem MReachable.viewTimers_sound (h : MReachable env p K o) : TimersSound p o := by
  induction h with
  | init h =>
    obtain ⟨o₁, h₁, rfl⟩ := initOrderer_cases h
    have hempty : TimersSound p ⟨newState p, [], [], []⟩ := ⟨nofun, nofun, .nil⟩
    refine hempty.of_cases UInt64.zero_le ?_
    have htimers := viewTimers_initView h₁
    rw [← (initView_frame h₁).view] at htimers
    rw [Orderer.emit_out, viewTimers_append_other]
    · exact htimers
    · simp [Output.isSegTimer]
  | micro _ hstep ih =>
    refine ih.of_cases ?_ hstep.viewTimers_cases
    rcases hstep.view_cases with ⟨hsame, -⟩ | hlater | ⟨hle, -⟩
    · exact hsame ▸ UInt64.le_refl _
    · exact UInt64.le_of_lt hlater
    · exact hle

/-! ### The delays -/

/-- The delay of a view is exact in 64-bit arithmetic. -/
def DelayFits (timeout : ℤ) (view : ViewNr) : Prop := timeout * 2 ^ view.toNat < 2 ^ 63

theorem computeTimeout_eq {timeout : ℤ} {view : ViewNr} (hpos : 0 < timeout)
    (hfits : DelayFits timeout view) : computeTimeout timeout view = timeout * 2 ^ view.toNat := by
  have hpow : (0 : ℤ) < 2 ^ view.toNat := by positivity
  have hprod : 0 < timeout * 2 ^ view.toNat := Int.mul_pos hpos hpow
  have hlt : view < 64 := by
    rw [UInt64.lt_iff_toNat_lt]
    by_contra hge
    have hle : (2 : ℤ) ^ 64 ≤ 2 ^ view.toNat := pow_le_pow_right₀ (by decide) (Nat.le_of_not_lt hge)
    have hone : 1 * (2 : ℤ) ^ view.toNat ≤ timeout * 2 ^ view.toNat :=
      Int.mul_le_mul_of_nonneg_right hpos hpow.le
    unfold DelayFits at hfits
    omega
  rw [computeTimeout, if_pos hlt, BitVec.toInt_ofInt]
  unfold DelayFits at hfits
  exact Int.bmod_eq_of_le (by omega) (by omega)

theorem computeTimeout_mono {timeout : ℤ} {view view' : ViewNr} (hpos : 0 < timeout)
    (hfits : DelayFits timeout view) (hfits' : DelayFits timeout view') (hle : view ≤ view') :
    computeTimeout timeout view ≤ computeTimeout timeout view' := by
  rw [computeTimeout_eq hpos hfits, computeTimeout_eq hpos hfits']
  exact Int.mul_le_mul_of_nonneg_left
    (pow_le_pow_right₀ (by decide) (UInt64.le_iff_toNat_le.mp hle)) hpos.le

/-- The delays are positive, and do not shrink from one view entered to the next. -/
def DelaysGrow (timers : List ViewTimers) : Prop :=
  (∀ t ∈ timers, 0 < t.snDelay ∧ 0 < t.segDelay) ∧
    timers.Pairwise fun t t' => t.snDelay ≤ t'.snDelay ∧ t.segDelay ≤ t'.segDelay

/-- **View change timeouts never shrink** in runs that enter only views for which the delays are exact in
64-bit arithmetic. -/
theorem viewTimers_grow (env : Env) (p : ModuleParams) (o : Orderer)
    (hr : Reachable env p anyStep o) (hsn : 0 < p.config.viewChangeSNTimeout)
    (hseg : 0 < p.config.viewChangeSegmentTimeout)
    (hfits : ∀ t ∈ viewTimers o.out, DelayFits p.config.viewChangeSNTimeout t.view ∧
      DelayFits p.config.viewChangeSegmentTimeout t.view) :
    DelaysGrow (viewTimers o.out) := by
  have hr' : Reachable env p (Guards.none.onStep p) o :=
    hr.mono fun o ord ev _ => Guards.none_onStep p o ord ev
  have hsound := hr'.mReachable.viewTimers_sound
  refine ⟨fun t ht => ?_, hsound.ordered.imp_of_mem fun {t t'} ht ht' hle => ?_⟩
  · obtain ⟨hfit, hfit'⟩ := hfits t ht
    rw [hsound.computed t ht, timersOf, computeTimeout_eq hsn hfit, computeTimeout_eq hseg hfit']
    constructor <;> positivity
  · obtain ⟨hfit₁, hfit₁'⟩ := hfits t ht
    obtain ⟨hfit₂, hfit₂'⟩ := hfits t' ht'
    rw [hsound.computed t ht, hsound.computed t' ht']
    exact ⟨computeTimeout_mono hsn hfit₁ hfit₂ hle, computeTimeout_mono hseg hfit₁' hfit₂' hle⟩

/-- The second node, with timeouts of four and eight seconds. -/
def timedParams : ModuleParams :=
  { plainParams singleSlot [98] with
    config := { (plainParams singleSlot [98]).config with
      viewChangeSNTimeout := 4000000000
      viewChangeSegmentTimeout := 8000000000 } }

/-- A NewView for the given view, sent by its primary, with an aborted Preprepare and with ViewChanges
that report nothing; its signatures and digests are computed. -/
def acceptNewViewFor (view : ViewNr) (primary : NodeID) : List Event :=
  let nv : NewView := ⟨view, [[97], [99], [100]], [[97], [99], [100]].map (emptyViewChange view), [0],
    [⟨0, view, [], true⟩]⟩
  [.messageReceived primary (.newView nv), .sigsVerified nv.viewChangeSenders true nv,
    .hashResult (nv.preprepares.map Preprepare.hashBytes) (.newView nv)]

/-- The node enters view one. -/
theorem viewTimers_grow_one :
    ∃ o, Reachable plainEnv timedParams anyStep o ∧
      viewTimers o.out = [⟨0, 4000000000, 8000000000⟩, ⟨1, 8000000000, 16000000000⟩] ∧
      DelaysGrow (viewTimers o.out) := by
  obtain ⟨o, hr, htimers⟩ := exists_reachable (C := anyStep) (fun _ => trivial) (by decide +kernel :
    (execute plainEnv timedParams (fun _ _ => true) (acceptNewViewFor 1 [97])).any (fun o =>
      viewTimers o.out = [⟨0, 4000000000, 8000000000⟩, ⟨1, 8000000000, 16000000000⟩]) = true)
  refine ⟨o, hr, htimers, viewTimers_grow _ _ o hr (by decide +kernel) (by decide +kernel) ?_⟩
  rw [htimers]
  simp [DelayFits, timedParams]

/-- **View change timeouts can shrink**: an accepted NewView for view 64 sets timers without delay. -/
theorem viewTimers_shrink : ¬ ∀ env p o, Reachable env p anyStep o →
    0 < p.config.viewChangeSNTimeout → 0 < p.config.viewChangeSegmentTimeout →
    p.config.viewChangeSNTimeout < 2 ^ 63 → p.config.viewChangeSegmentTimeout < 2 ^ 63 →
    DelaysGrow (viewTimers o.out) := by
  intro h
  obtain ⟨o, hr, htimers⟩ := exists_reachable (C := anyStep) (fun _ => trivial) (by decide +kernel :
    (execute plainEnv timedParams (fun _ _ => true) (acceptNewViewFor 64 [100])).any (fun o =>
      viewTimers o.out = [⟨0, 4000000000, 8000000000⟩, ⟨64, 0, 0⟩]) = true)
  obtain ⟨hpos, -⟩ := h _ _ o hr (by decide +kernel) (by decide +kernel) (by decide +kernel)
    (by decide +kernel)
  rw [htimers] at hpos
  exact absurd (hpos ⟨64, 0, 0⟩ (by simp)).1 (by decide)

end Mir.Orderers
