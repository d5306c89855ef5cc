import FlexPlan.ResourcePlan
import Mathlib.Data.List.Chain

/-!
# Moving free replacements to the ends of a plan

A replacement that occupies nothing new can always be made in the first step, and one that gives
nothing back in the last. States that become equal are dropped. No step of the rewritten plan has
less slack than some step of the given one.
-/
namespace PlanExchange

open ResourcePlan List

variable {κ : Type}

abbrev State (κ : Type) := κ → Bool

def allOld : State κ := fun _ => false

def allNew : State κ := fun _ => true

section Steps

variable (entries : List (κ × ℕ × ℕ)) (room : ℕ)

def slack (b b' : State κ) : ℤ := freeRoom entries room b - demand entries b b'

def Complete (b : State κ) : Prop := ∀ e ∈ entries, b e.1 = true

def Agree (b b' : State κ) : Prop := ∀ e ∈ entries, b e.1 = b' e.1

def Larger (b b' : State κ) : Prop := ∃ e ∈ entries, b e.1 = false ∧ b' e.1 = true

instance (b : State κ) : Decidable (Complete entries b) :=
  inferInstanceAs (Decidable (∀ e ∈ entries, b e.1 = true))

instance (b b' : State κ) : Decidable (Agree entries b b') :=
  inferInstanceAs (Decidable (∀ e ∈ entries, b e.1 = b' e.1))

instance (b b' : State κ) : Decidable (Larger entries b b') :=
  inferInstanceAs (Decidable (∃ e ∈ entries, b e.1 = false ∧ b' e.1 = true))

/-- A step that goes forward and leaves at least the room `μ`. -/
structure Step (μ : ℤ) (b b' : State κ) : Prop where
  grows : Grows entries b b'
  progress : Larger entries b b' ∨ Complete entries b'
  slack : μ ≤ slack entries room b b'

def whole (states : List (State κ)) : List (State κ) := allOld :: (states ++ [allNew])

def minSlack : State κ → List (State κ) → ℤ
  | b, [] => slack entries room b allNew
  | b, c :: cs => min (slack entries room b c) (minSlack c cs)

end Steps

variable {entries : List (κ × ℕ × ℕ)} {room : ℕ} {b b' c c' : State κ}

theorem fits_iff_slack : Fits entries room b b' ↔ 0 ≤ slack entries room b b' := by
  unfold Fits slack
  omega

theorem le_minSlack_iff {states : List (State κ)} : μ ≤ minSlack entries room b states ↔
      (b :: (states ++ [allNew])).IsChain fun c c' => μ ≤ slack entries room c c' := by
  induction states generalizing b with
  | nil => simp [minSlack]
  | cons c cs ih => simp [minSlack, ih]

section Slack

def share (e : κ × ℕ × ℕ) (b b' : Bool) : ℤ :=
  (if b then (e.2.1 : ℤ) - e.2.2 else 0) - if b = b' then 0 else (e.2.2 : ℤ)

theorem slack_eq_sum :
    slack entries room b b' = room + (entries.map fun e => share e (b e.1) (b' e.1)).sum := by
  unfold slack freeRoom demand share
  induction entries with
  | nil => simp
  | cons e es ih =>
    simp only [map_cons, sum_cons, Nat.cast_add, Nat.cast_ite, Nat.cast_zero] at ih ⊢
    omega

theorem slack_le_slack (h : ∀ e ∈ entries, share e (b e.1) (b' e.1) ≤ share e (c e.1) (c' e.1)) :
    slack entries room b b' ≤ slack entries room c c' := by
  rw [slack_eq_sum, slack_eq_sum]
  have hsum := sum_le_sum h
  omega

end Slack

section Settle

variable (entries) (add del : κ → Bool)

/-- Components that give nothing back and components that occupy nothing new. -/
structure Free : Prop where
  add_old : ∀ e ∈ entries, add e.1 = true → e.2.1 = 0
  del_new : ∀ e ∈ entries, add e.1 = false → del e.1 = true → e.2.2 = 0

def settle (b : State κ) : State κ := fun k => !add k && (del k || b k)

/-- The state `c` stands for `b` in the rewritten plan; the old program stands for itself. -/
def StandsFor (b c : State κ) : Prop :=
  ∀ e ∈ entries, c e.1 = settle add del b e.1 ∨ (b e.1 = false ∧ c e.1 = false)

/-- The rewritten states behind `prev`, as many as there were. -/
def rearrange (prev : State κ) : List (State κ) → List (State κ)
  | [] => []
  | b :: bs =>
    if Complete entries b then allNew :: bs.map fun _ => allNew
    else if Agree entries (settle add del b) prev then rearrange prev bs ++ [allNew]
    else settle add del b :: rearrange (settle add del b) bs

variable {entries add del}

theorem length_rearrange (prev : State κ) (states : List (State κ)) :
    (rearrange entries add del prev states).length = states.length := by
  induction states generalizing prev with
  | nil => rfl
  | cons b bs ih =>
    rw [rearrange]
    split_ifs
    · simp
    · simp [ih]
    · simp [ih]

variable {states : List (State κ)}

theorem mem_rearrange {prev c : State κ} (h : c ∈ rearrange entries add del prev states) :
    c = allNew ∨ ∃ b ∈ states, c = settle add del b := by
  induction states generalizing prev with
  | nil => cases h
  | cons b bs ih =>
    rw [rearrange] at h
    have hlater : ∀ q, c ∈ rearrange entries add del q bs →
        c = allNew ∨ ∃ b' ∈ b :: bs, c = settle add del b' := by
      intro q hq
      rcases ih hq with h | ⟨b', hb', h⟩
      · exact Or.inl h
      · exact Or.inr ⟨b', mem_cons_of_mem _ hb', h⟩
    split_ifs at h
    · rcases mem_cons.mp h with h | h
      · exact Or.inl h
      · obtain ⟨_, _, h⟩ := mem_map.mp h
        exact Or.inl h.symm
    · rcases mem_append.mp h with h | h
      · exact hlater _ h
      · exact Or.inl (mem_singleton.mp h)
    · rcases mem_cons.mp h with h | h
      · exact Or.inr ⟨b, mem_cons_self, h⟩
      · exact hlater _ h

section Shares

variable {e : κ × ℕ × ℕ} {a d x x' y : Bool}

theorem share_settle (hadd : a = true → e.2.1 = 0) (hdel : a = false → d = true → e.2.2 = 0)
    (hg : x = true → x' = true) (hy : y = (!a && (d || x)) ∨ (x = false ∧ y = false)) :
    share e x x' ≤ share e y (!a && (d || x')) := by
  cases a <;> cases d <;> cases x <;> cases x' <;> cases y <;> simp_all [share]

theorem share_complete (hadd : a = true → e.2.1 = 0) (hdel : a = false → d = true → e.2.2 = 0)
    (hy : y = (!a && (d || x)) ∨ (x = false ∧ y = false)) : share e x true ≤ share e y true := by
  cases a <;> cases d <;> cases x <;> cases y <;> simp_all [share]

theorem share_new : share e x true ≤ share e true true := by
  cases x <;> simp [share]

end Shares

theorem standsFor_settle (b : State κ) : StandsFor entries add del b (settle add del b) :=
  fun _ _ => Or.inl rfl

theorem standsFor_old : StandsFor entries add del (allOld : State κ) allOld :=
  fun _ _ => Or.inr ⟨rfl, rfl⟩

theorem standsFor_of_agree (h : Agree entries (settle add del b) c) :
    StandsFor entries add del b c :=
  fun e he => Or.inl (h e he).symm

theorem StandsFor.grows (h : StandsFor entries add del b c) (hg : Grows entries b b') :
    Grows entries c (settle add del b') := by
  intro e he hc
  have hb := hg e he
  unfold settle
  rcases h e he with h | ⟨_, h⟩
  · rw [h, settle] at hc
    cases hadd : add e.1 <;> cases hdel : del e.1 <;> simp_all
  · rw [h] at hc
    cases hc

variable (hfree : Free entries add del)
include hfree

theorem StandsFor.slack_settle (h : StandsFor entries add del b c) (hg : Grows entries b b') :
    slack entries room b b' ≤ slack entries room c (settle add del b') :=
  slack_le_slack fun e he =>
    share_settle (hfree.add_old e he) (hfree.del_new e he) (hg e he) (h e he)

theorem StandsFor.slack_new (h : StandsFor entries add del b c) (hb' : Complete entries b') :
    slack entries room b b' ≤ slack entries room c allNew := by
  refine slack_le_slack fun e he => ?_
  rw [hb' e he]
  exact share_complete (hfree.add_old e he) (hfree.del_new e he) (h e he)

omit hfree

theorem complete_new : Complete entries (allNew : State κ) := fun _ _ => rfl

theorem step_new (hslack : μ ≤ slack entries room b allNew) :
    Step entries room μ b (allNew : State κ) :=
  ⟨fun _ _ _ => rfl, Or.inr complete_new, hslack⟩

theorem slack_complete (hb' : Complete entries b') :
    slack entries room b b' ≤ slack entries room (allNew : State κ) allNew := by
  refine slack_le_slack fun e he => ?_
  rw [hb' e he]
  exact share_new

theorem final_slack (h : (b :: (states ++ [allNew])).IsChain (Step entries room μ)) :
    μ ≤ slack entries room (allNew : State κ) allNew := by
  induction states generalizing b with
  | nil =>
    have hstep : Step entries room μ b allNew := by simpa using h
    exact hstep.slack.trans (slack_complete complete_new)
  | cons c cs ih => exact ih (isChain_cons_cons.mp h).2

theorem larger_of_grows (hg : Grows entries c c') (hne : ¬Agree entries c' c) :
    Larger entries c c' := by
  obtain ⟨e, he, hdiff⟩ : ∃ e ∈ entries, c' e.1 ≠ c e.1 := by
    simpa [Agree] using hne
  have hge := hg e he
  refine ⟨e, he, ?_⟩
  cases hc : c e.1 <;> cases hc' : c' e.1 <;> simp_all

theorem chain_rearrange (hfree : Free entries add del) (hs : StandsFor entries add del b c)
    (h : (b :: (states ++ [allNew])).IsChain (Step entries room μ)) :
    (c :: (rearrange entries add del c states ++ [allNew])).IsChain (Step entries room μ) := by
  induction states generalizing b c with
  | nil =>
    have hstep : Step entries room μ b allNew := by simpa using h
    simpa [rearrange] using step_new (hstep.slack.trans (hs.slack_new hfree complete_new))
  | cons b' bs ih =>
    have hlast := final_slack h
    obtain ⟨hstep, hrest⟩ := isChain_cons_cons.mp h
    rw [rearrange]
    split_ifs with hcomplete hagree
    · -- the rest of the plan stays complete
      have hpad : (bs.map fun _ => (allNew : State κ)) ++
          [allNew] = List.replicate (bs.length + 1) allNew := by
        rw [map_const', replicate_succ']
      rw [cons_append, hpad]
      refine isChain_cons_cons.mpr ⟨step_new (hstep.slack.trans (hs.slack_new hfree hcomplete)), ?_⟩
      rw [← replicate_succ]
      exact isChain_replicate_of_rel _ (step_new hlast)
    · -- the step only moved free components
      rw [append_assoc, singleton_append, isChain_cons_split]
      exact ⟨ih (standsFor_of_agree hagree) hrest, isChain_pair.mpr (step_new hlast)⟩
    · have hgrows := hs.grows hstep.grows
      refine isChain_cons_cons.mpr ⟨⟨hgrows, Or.inl (larger_of_grows hgrows hagree), ?_⟩,
        ih (standsFor_settle b') hrest⟩
      exact hstep.slack.trans (hs.slack_settle hfree hstep.grows)

theorem deletions_first (hadd : add k = false) (hdel : del k = true) (prev : State κ)
    (states : List (State κ)) :
    ∀ c ∈ (rearrange entries add del prev states ++ [allNew]).head?, c k = true := by
  induction states generalizing prev with
  | nil => simp [rearrange, allNew]
  | cons b bs ih =>
    rw [rearrange]
    split_ifs
    · simp [allNew]
    · have hkept := ih prev
      simpa using hkept
    · simp [settle, hadd, hdel]

theorem additions_last (prev : State κ) (hprev : ∀ k, add k = true → prev k = false)
    (states : List (State κ)) :
    ∃ c c', [c, c'] <:+: prev :: (rearrange entries add del prev states ++ [allNew]) ∧
      (∀ k, add k = true → c k = false) ∧ Complete entries c' := by
  induction states generalizing prev with
  | nil => exact ⟨prev, allNew, infix_rfl, hprev, complete_new⟩
  | cons b bs ih =>
    rw [rearrange]
    split_ifs
    · refine ⟨prev, allNew, ?_, hprev, complete_new⟩
      exact List.IsPrefix.isInfix ⟨(bs.map fun _ => allNew) ++ [allNew], by simp⟩
    · obtain ⟨c, c', hin, hc, hc'⟩ := ih prev hprev
      exact ⟨c, c', hin.trans (List.IsPrefix.isInfix ⟨[allNew], by simp⟩), hc, hc'⟩
    · obtain ⟨c, c', hin, hc, hc'⟩ := ih (settle add del b) (by simp +contextual [settle])
      exact ⟨c, c', hin.trans (infix_cons infix_rfl), hc, hc'⟩

end Settle

end PlanExchange
