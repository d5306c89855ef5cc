import FlexPlan.DistillMain

/-!
# Cores of two definitions

`main` ends by dumping the clauses of the formula it looked at last, whatever its definition, into
the file that every call of `find_unsat_cores` loads. So the clauses of one definition can
constrain the other.
-/
namespace CoreSeparation

open PythonText CoreLearning DistillMain

variable {Comp : Type}

section Model

/-- A call of `find_unsat_cores` with the directory it finds. -/
structure Call (Comp : Type) where
  dir : Dir Comp
  entry : Entry Comp

def callsFrom (v : Vars Comp) : List (Entry Comp) → List (Call Comp)
  | [] => []
  | e :: es => ⟨v.dir, e⟩ :: callsFrom (analyse v e) es

def runCalls (id : Str) (dir : Dir Comp) (listing : List (Entry Comp)) : List (Call Comp) :=
  callsFrom ⟨dir, [], none, fun _ => []⟩ (listing.filter (selected id))

def allCalls (id : Str) (dir : Dir Comp) : List (List (Entry Comp)) → List (Call Comp)
  | [] => []
  | listing :: listings => runCalls id dir listing ++ allCalls id (main id dir listing) listings

def cores (e : Entry Comp) : List (Core Comp) :=
  (findUnsatCores ("./".toList ++ e.1) e.2 [] []).unsatLists

/-- The clauses of `solve-distill.smt` after the first answers. -/
def asserted (call : Call Comp) (answers : List (Answer Comp)) : List (Core Comp) :=
  (learned call.dir (call.entry.1, answers)).written

def learnedFrom (k : Define) (calls : List (Call Comp)) : List (Core Comp) :=
  (calls.filter fun call => define call.entry.1 = k).flatMap fun call => cores call.entry

end Model

section Specification

/-- Whatever a call asserts was learned from a formula of the same definition. -/
def Separate (id : Str) (dir : Dir Comp) (listings : List (List (Entry Comp))) : Prop :=
  ∀ before call after, allCalls id dir listings = before ++ call :: after →
    ∀ answers, answers <+: call.entry.2 → ∀ c ∈ asserted call answers,
      c ∈ learnedFrom (define call.entry.1) before ∨ c ∈ cores (call.entry.1, answers)

/-- The first check finds a counterexample, so that the file is written again. -/
def found : List (Answer Comp) → Bool
  | .check (.sat _ _) :: _ => true
  | _ => false

/-- A usable core comes before the loop gives up; it endures `budget` examples without a core. -/
def findsCore (filename : Str) : ℕ → List (Answer Comp) → Bool
  | budget + 1, .check (.sat _ core) :: answers =>
    if core.isEmpty then findsCore filename budget answers
    else if dropsCore filename core then findsCore filename (budget + 1) answers
    else true
  | _, _ => false

/-- The last formula of a run has a usable core only if its definition is that of every formula
with a counterexample in later runs. -/
def Uncontaminated (id : Str) (listings : List (List (Entry Comp))) : Prop :=
  ∀ before listing after, listings = before ++ listing :: after → ∀ earlier ∈ before,
    ∀ e' ∈ (earlier.filter (selected id)).getLast?, findsCore ("./".toList ++ e'.1) 20 e'.2 = true →
      ∀ e ∈ listing.filter (selected id), found e.2 = true → define e'.1 = define e.1

end Specification

section Loading

variable {filename : Str} {results lists : List (Core Comp)}

def rewritten (s : Loop Comp) : Bool := s.blocked.isSome || !s.written.isEmpty

/-- A loop that found nothing, as if clauses and cores had been loaded before it. -/
def loaded (results lists : List (Core Comp)) (s : Loop Comp) : Loop Comp :=
  { s with
    result := results ++ s.result
    unsatResults := results ++ s.unsatResults
    unsatLists := lists ++ s.unsatLists
    written := if rewritten s then results ++ s.written else [] }

theorem iterate_loaded (s : Loop Comp) (a : Answer Comp) :
    iterate filename (loaded results lists s) a = loaded results lists (iterate filename s a) := by
  cases a with
  | late => rfl
  | check c =>
    have hflag : (loaded results lists s).flagSat = s.flagSat := rfl
    rw [iterate, iterate, hflag]
    by_cases hf : s.flagSat ≥ 20
    · rw [if_pos hf, if_pos hf]
      rfl
    · rw [if_neg hf, if_neg hf]
      cases c with
      | unsat | unknown => rfl
      | sat v core =>
        by_cases he : core.isEmpty = true
        · rw [examine, if_pos he, examine, if_pos he]
          rfl
        · by_cases hd : dropsCore filename core = true
          · rw [examine, if_neg he, if_pos hd, examine, if_neg he, if_pos hd]
            rfl
          · rw [examine, if_neg he, if_neg hd, examine, if_neg he, if_neg hd]
            have hwritten : rewritten (record s core) = true := by simp [rewritten, record]
            simp [loaded, hwritten]
            simp [record, List.append_assoc]

theorem loop_loaded (s : Loop Comp) (answers : List (Answer Comp)) :
    loop filename (loaded results lists s) answers =
      loaded results lists (loop filename s answers) := by
  induction answers generalizing s with
  | nil => rfl
  | cons a answers ih =>
    rw [loop, loop, iterate_loaded, ih]
    split
    · rw [if_pos (by assumption)]
    · rw [if_neg (by assumption)]

theorem findUnsatCores_loaded (answers : List (Answer Comp)) :
    findUnsatCores filename answers results lists =
      loaded results lists (findUnsatCores filename answers [] []) := by
  have hstart : start results lists = loaded results lists (start [] []) := by
    simp [start, loaded, rewritten]
  rw [findUnsatCores, hstart, loop_loaded]
  rfl

/-- Without loaded clauses the three lists agree, and the file has only their cores. -/
structure Clean (s : Loop Comp) : Prop where
  results : s.unsatResults = s.unsatLists
  result : s.result = s.unsatLists
  written : s.written ⊆ s.unsatLists

variable {s : Loop Comp}

theorem clean_iterate (h : Clean s) (a : Answer Comp) : Clean (iterate filename s a) := by
  have heffect := iterate_effect filename s a
  generalize iterate filename s a = t at heffect
  cases heffect with
  | stopped a r => exact ⟨h.results, h.result, h.written⟩
  | blocked v core n => exact ⟨h.results, h.result, h.result ▸ List.Subset.refl _⟩
  | recorded v core hc =>
    have happend : s.result ++ [core] = s.unsatLists ++ [core] := congrArg (· ++ [core]) h.result
    have hsub : s.result ++ [core] ⊆ s.unsatLists ++ [core] := by
      rw [happend]; exact List.Subset.refl _
    exact ⟨congrArg (· ++ [core]) h.results, happend, hsub⟩

theorem clean_loop (h : Clean s) (answers : List (Answer Comp)) :
    Clean (loop filename s answers) := by
  induction answers generalizing s with
  | nil => exact h
  | cons a answers ih =>
    rw [loop]
    split
    · exact h
    · exact ih (clean_iterate h a)

theorem clean_findUnsatCores (filename : Str) (answers : List (Answer Comp)) :
    Clean (findUnsatCores filename answers [] []) :=
  clean_loop ⟨rfl, rfl, List.Subset.refl _⟩ answers

theorem rewritten_iterate (h : rewritten s = true) (a : Answer Comp) :
    rewritten (iterate filename s a) = true := by
  have heffect := iterate_effect filename s a
  generalize iterate filename s a = t at heffect
  cases heffect with
  | stopped a r => exact h
  | blocked v core n => rfl
  | recorded v core hc => simp [rewritten, record]

theorem rewritten_loop (h : rewritten s = true) (answers : List (Answer Comp)) :
    rewritten (loop filename s answers) = true := by
  induction answers generalizing s with
  | nil => exact h
  | cons a answers ih =>
    rw [loop]
    split
    · exact h
    · exact ih (rewritten_iterate h a)

theorem loop_of_stop (h : s.stop.isSome = true) (answers : List (Answer Comp)) :
    loop filename s answers = s := by
  cases answers with
  | nil => rfl
  | cons a answers => rw [loop, if_pos h]

theorem rewritten_iff (filename : Str) (answers : List (Answer Comp)) :
    rewritten (findUnsatCores filename answers [] []) = found answers := by
  cases answers with
  | nil => rfl
  | cons a answers =>
    rw [findUnsatCores, loop, if_neg (by simp [start])]
    cases a with
    | late =>
      rw [loop_of_stop rfl]
      rfl
    | check c =>
      cases c with
      | unsat | unknown =>
        rw [loop_of_stop rfl]
        rfl
      | sat v core =>
        refine rewritten_loop ?_ answers
        rw [iterate, if_neg (by simp [start]), examine]
        split_ifs <;> simp [rewritten, block, record]

theorem unsatLists_loop (answers : List (Answer Comp)) :
    s.unsatLists <+: (loop filename s answers).unsatLists := by
  induction answers generalizing s with
  | nil => exact List.prefix_rfl
  | cons a answers ih =>
    rw [loop]
    split
    · exact List.prefix_rfl
    · refine List.IsPrefix.trans ?_ ih
      have heffect := iterate_effect filename s a
      generalize iterate filename s a = t at heffect
      cases heffect with
      | stopped a r | blocked v core n => exact List.prefix_rfl
      | recorded v core hc => exact List.prefix_append _ _

theorem learns_iff (hstop : s.stop = none) (hlists : s.unsatLists = [])
    (answers : List (Answer Comp)) :
    (loop filename s answers).unsatLists ≠ [] ↔
      findsCore filename (20 - s.flagSat) answers = true := by
  induction answers generalizing s with
  | nil => simp [loop, hlists, findsCore]
  | cons a answers ih =>
    rw [loop, if_neg (by simp [hstop])]
    cases a with
    | late =>
      rw [loop_of_stop rfl]
      cases 20 - s.flagSat <;> simp [iterate, hlists, findsCore]
    | check c =>
      by_cases hflag : s.flagSat ≥ 20
      · rw [iterate, if_pos hflag, loop_of_stop rfl, Nat.sub_eq_zero_of_le hflag]
        simp [hlists, findsCore]
      · obtain ⟨budget, hbudget⟩ : ∃ budget, 20 - s.flagSat = budget + 1 :=
          ⟨19 - s.flagSat, by omega⟩
        rw [iterate, if_neg hflag, hbudget]
        cases c with
        | unsat | unknown =>
          rw [examine, loop_of_stop rfl]
          simp [hlists, findsCore]
        | sat v core =>
          rw [examine, findsCore]
          split_ifs with hempty hdrop
          · have hless : 20 - (s.flagSat + 1) = budget := by omega
            have hnext := @ih (block { s with flagSat := s.flagSat + 1 } v) hstop hlists
            rw [← hless]
            exact hnext
          · rw [← hbudget]
            exact @ih (block s v) hstop hlists
          · refine iff_of_true ?_ rfl
            have hprefix : (record s core).unsatLists <+:
                (loop filename (record s core) answers).unsatLists :=
              unsatLists_loop answers
            intro hnil
            rw [hnil, List.prefix_nil] at hprefix
            exact List.append_ne_nil_of_right_ne_nil _ (List.cons_ne_nil _ _) hprefix

theorem mem_loop {P : Core Comp → Prop}
    (h : ∀ core, core.isEmpty = false → dropsCore filename core = false → P core)
    (hs : ∀ c ∈ s.unsatLists, P c)
    (answers : List (Answer Comp)) : ∀ c ∈ (loop filename s answers).unsatLists, P c := by
  induction answers generalizing s with
  | nil => exact hs
  | cons a answers ih =>
    rw [loop]
    split
    · exact hs
    · refine ih ?_
      cases a with
      | late => exact hs
      | check c =>
        rw [iterate]
        split
        · exact hs
        · cases c with
          | unsat | unknown => exact hs
          | sat v core =>
            rw [examine]
            split_ifs with hempty hdrop
            · exact hs
            · exact hs
            · intro c hc
              rcases List.mem_append.mp hc with hc | hc
              · exact hs c hc
              · rw [List.mem_singleton.mp hc]
                exact h core (Bool.eq_false_iff.mpr hempty) (Bool.eq_false_iff.mpr hdrop)

end Loading

section Sides

theorem isIn_of_define {filename : Str} :
    (define filename = .old → isIn "old".toList filename = true) ∧
    (define filename = .new → isIn "new".toList filename = true) := by
  constructor
  · intro h
    by_contra hold
    rw [define, if_neg hold] at h
    split at h <;> cases h
  · intro h
    by_contra hnew
    rw [define, if_neg hnew] at h
    split at h <;> cases h

theorem side_of_mem_cores (hk : define e.1 ≠ .single) {c : Core Comp} (hc : c ∈ cores e) :
    c ≠ [] ∧ ∀ l ∈ c, l.2 = decide (define e.1 = .old) := by
  refine mem_loop (P := fun c => c ≠ [] ∧ ∀ l ∈ c, l.2 = decide (define e.1 = .old)) ?_
    (fun c hc => absurd hc List.not_mem_nil) e.2 c hc
  intro core hempty hdrop
  refine ⟨List.isEmpty_eq_false_iff.mp hempty, fun l hl => ?_⟩
  rw [dropsCore, Bool.or_eq_false_iff, Bool.or_eq_false_iff, Bool.and_eq_false_iff,
    Bool.and_eq_false_iff] at hdrop
  obtain ⟨⟨hnew, hold⟩, -⟩ := hdrop
  cases hdefine : define e.1 with
  | single => exact absurd hdefine hk
  | old =>
    have hin := isIn_append_right "./".toList (isIn_of_define.1 hdefine)
    have hall := List.any_eq_false.mp (hold.resolve_left (by rw [hin]; exact Bool.noConfusion)) l hl
    simpa using hall
  | new =>
    have hin := isIn_append_right "./".toList (isIn_of_define.2 hdefine)
    have hall := List.any_eq_false.mp (hnew.resolve_left (by rw [hin]; exact Bool.noConfusion)) l hl
    simpa using hall

theorem define_eq_of_mem_cores (hk : define e.1 ≠ .single) (hk' : define e'.1 ≠ .single)
    (hc : c ∈ cores e)
    (hc' : c ∈ cores e') : define e.1 = define e'.1 := by
  obtain ⟨hne, hside⟩ := side_of_mem_cores hk hc
  obtain ⟨-, hside'⟩ := side_of_mem_cores hk' hc'
  obtain ⟨l, hl⟩ := List.exists_mem_of_ne_nil c hne
  have heq := (hside l hl).symm.trans (hside' l hl)
  revert hk hk' heq
  cases define e.1 <;> cases define e'.1 <;> decide

end Sides

section Runs

variable {id : Str} {dir : Dir Comp}

/-- The clauses in `unsat_results.pickle`. -/
def stored (dir : Dir Comp) : List (Core Comp) := (dir.results .single).getD []

def lastCores (id : Str) (listing : List (Entry Comp)) : List (Core Comp) :=
  ((listing.filter (selected id)).getLast?.map cores).getD []

theorem learned_eq (dir : Dir Comp) (e : Entry Comp) :
    learned dir e = loaded (stored dir) ((dir.lists (define e.1)).getD [])
      (findUnsatCores ("./".toList ++ e.1) e.2 [] []) :=
  findUnsatCores_loaded e.2

/-- What a call asserts: nothing before its first counterexample, then the stored clauses and
cores of its own. -/
theorem mem_asserted {call : Call Comp} {answers : List (Answer Comp)}
    (h : c ∈ asserted call answers) :
    (found answers = true ∧ c ∈ stored call.dir) ∨ c ∈ cores (call.entry.1, answers) := by
  rw [asserted, learned_eq] at h
  simp only [loaded, rewritten_iff] at h
  split at h
  · rcases List.mem_append.mp h with hstored | hwritten
    · exact Or.inl ⟨by assumption, hstored⟩
    · exact Or.inr ((clean_findUnsatCores _ _).written hwritten)
  · cases h

theorem stored_subset_asserted {call : Call Comp} {answers : List (Answer Comp)}
    (h : found answers = true) :
    stored call.dir ⊆ asserted call answers := by
  rw [asserted, learned_eq]
  simp only [loaded, rewritten_iff, h, if_true]
  exact List.subset_append_left _ _

variable (v : Vars Comp)

theorem analyse_results (e : Entry Comp) : (analyse v e).dir.results = v.dir.results := rfl

theorem callsFrom_spec :
    (callsFrom v es).map Call.entry = es ∧
      ∀ call ∈ callsFrom v es, stored call.dir = stored v.dir := by
  induction es generalizing v with
  | nil => exact ⟨rfl, fun call hcall => absurd hcall List.not_mem_nil⟩
  | cons e es ih =>
    obtain ⟨hentries, hstored⟩ := @ih (analyse v e)
    refine ⟨congrArg (e :: ·) hentries, List.forall_mem_cons.mpr ⟨rfl, fun call hcall => ?_⟩⟩
    rw [hstored call hcall, stored, analyse_results]
    rfl

theorem foldl_analyse_results (es : List (Entry Comp)) :
    (es.foldl analyse v).dir.results = v.dir.results := by
  induction es generalizing v with
  | nil => rfl
  | cons e es ih => rw [List.foldl_cons, ih, analyse_results]

theorem finish_results :
    (finish v).results .single =
      if v.unsatLists.isEmpty then v.dir.results .single else v.unsatResults := by
  have hother : ∀ k tested (dir : Dir Comp), k ≠ .single →
      (dump v k tested dir).results .single = dir.results .single := by
    intro k tested dir hk
    rw [dump]
    split
    · rfl
    · exact Function.update_of_ne hk.symm _ _
  rw [finish, hother _ _ _ (by decide), hother _ _ _ (by decide), dump]
  split
  · rfl
  · exact Function.update_self Define.single v.unsatResults v.dir.results

theorem stored_main (id : Str) (dir : Dir Comp) (listing : List (Entry Comp)) :
    stored (main id dir listing) = stored dir ++ lastCores id listing := by
  rw [stored, main, finish_results, visit_selected, lastCores]
  rcases List.eq_nil_or_concat (listing.filter (selected id)) with hnil | ⟨es, e, hlast⟩
  · rw [hnil]
    simp [stored]
  · rw [hlast, List.concat_eq_append, List.foldl_append, List.foldl_cons, List.foldl_nil,
      List.getLast?_concat]
    generalize hv : es.foldl analyse ⟨dir, [], none, fun _ => []⟩ = v
    have hresults : v.dir.results = dir.results := by
      rw [← hv]
      exact foldl_analyse_results _ es
    have hstored : stored v.dir = stored dir := by rw [stored, hresults]; rfl
    have hclean := clean_findUnsatCores ("./".toList ++ e.1) e.2
    have hlists : (analyse v e).unsatLists = (v.dir.lists (define e.1)).getD [] ++ cores e :=
      congrArg Loop.unsatLists (learned_eq v.dir e)
    have hunsat : (analyse v e).unsatResults = some (stored dir ++ cores e) := by
      have heq := congrArg Loop.unsatResults (learned_eq v.dir e)
      rw [← hstored, cores, ← hclean.results]
      exact congrArg some heq
    split
    · have hcores : cores e = [] := by
        rename_i hempty
        rw [hlists, List.isEmpty_iff, List.append_eq_nil_iff] at hempty
        exact hempty.2
      rw [Option.map_some, Option.getD_some, hcores, List.append_nil, analyse_results, hresults]
      rfl
    · rw [hunsat]
      rfl

theorem stored_foldl_main (dir : Dir Comp) (listings : List (List (Entry Comp))) :
    stored (listings.foldl (main id) dir) = stored dir ++ listings.flatMap (lastCores id) := by
  induction listings generalizing dir with
  | nil => simp
  | cons listing listings ih =>
    rw [List.foldl_cons, ih, stored_main, List.flatMap_cons, List.append_assoc]

theorem allCalls_append (dir : Dir Comp) (before after : List (List (Entry Comp))) :
    allCalls id dir (before ++ after) = allCalls id dir before ++ allCalls id
    (before.foldl (main id) dir) after := by
  induction before generalizing dir with
  | nil => rfl
  | cons listing before ih =>
    rw [List.cons_append, allCalls, allCalls, ih, List.foldl_cons, List.append_assoc]

theorem exists_run {listings : List (List (Entry Comp))} {before : List (Call Comp)}
    {call : Call Comp}
    {after : List (Call Comp)} (h : allCalls id dir listings = before ++ call :: after) :
    ∃ earlier listing later inside rest, listings = earlier ++ listing :: later ∧
      runCalls id (earlier.foldl (main id) dir) listing = inside ++ call :: rest ∧
      before = allCalls id dir earlier ++ inside := by
  induction listings generalizing dir before with
  | nil => cases before <;> cases h
  | cons listing listings ih =>
    rw [allCalls] at h
    rcases List.append_eq_append_iff.mp h with ⟨inside, hbefore, hcalls⟩ | ⟨rest, hrun, htail⟩
    · obtain ⟨earlier, listing', later, inside', rest, rfl, hrun, rfl⟩ := ih hcalls
      exact ⟨listing :: earlier, listing', later, inside', rest, rfl, hrun, by
        rw [hbefore, allCalls, List.append_assoc]⟩
    · cases rest with
      | nil =>
        obtain ⟨earlier, listing', later, inside', rest', rfl, hrun', hinside⟩ :=
          @ih (main id dir listing) [] htail.symm
        refine ⟨listing :: earlier, listing', later, inside', rest', rfl, hrun', ?_⟩
        rw [allCalls, List.append_assoc, ← hinside, List.append_nil]
        rw [List.append_nil] at hrun
        exact hrun.symm
      | cons call' rest =>
        cases htail
        exact ⟨[], listing, listings, before, rest, rfl, hrun, rfl⟩

/-- The entry of a call is selected from the listing of its run, and a run does not change the
stored clauses before its end. -/
theorem mem_runCalls {listing : List (Entry Comp)} {call : Call Comp}
    (h : call ∈ runCalls id dir listing) :
    call.entry ∈ listing.filter (selected id) ∧ stored call.dir = stored dir := by
  obtain ⟨hentries, hstored⟩ :=
    @callsFrom_spec Comp ⟨dir, [], none, fun _ => []⟩ (listing.filter (selected id))
  refine ⟨?_, hstored call h⟩
  have hmem := List.mem_map_of_mem (f := Call.entry) h
  rwa [runCalls, hentries] at hmem

theorem exists_call {listing : List (Entry Comp)} {e : Entry Comp}
    (h : e ∈ listing.filter (selected id)) :
    ∃ call ∈ runCalls id dir listing, call.entry = e := by
  obtain ⟨hentries, -⟩ :=
    @callsFrom_spec Comp ⟨dir, [], none, fun _ => []⟩ (listing.filter (selected id))
  rw [← hentries] at h
  exact List.mem_map.mp h

theorem exists_call_of_run {earlier later : List (List (Entry Comp))} {listing : List (Entry Comp)}
    {e : Entry Comp} (h : e ∈ listing.filter (selected id)) :
    ∃ before call after, allCalls id dir (earlier ++ listing :: later) = before ++ call :: after ∧
      call.entry = e ∧ stored call.dir = stored (earlier.foldl (main id) dir) := by
  obtain ⟨call, hcall, hentry⟩ := @exists_call Comp id (earlier.foldl (main id) dir) listing e h
  obtain ⟨inside, rest, hsplit⟩ := List.append_of_mem hcall
  refine ⟨allCalls id dir earlier ++ inside, call,
    rest ++ allCalls id (main id (earlier.foldl (main id) dir) listing) later, ?_, hentry,
      (mem_runCalls hcall).2⟩
  rw [allCalls_append, allCalls, hsplit, List.append_assoc, List.append_assoc, List.cons_append]

theorem mem_flatMap_lastCores {listings : List (List (Entry Comp))} :
    c ∈ listings.flatMap (lastCores id) ↔
      ∃ l ∈ listings, ∃ e ∈ (l.filter (selected id)).getLast?, c ∈ cores e := by
  rw [List.mem_flatMap]
  refine exists_congr fun l => and_congr_right fun _ => ?_
  rw [lastCores]
  cases (l.filter (selected id)).getLast? <;> simp

theorem findsCore_iff : findsCore ("./".toList ++ e.1) 20 e.2 = true ↔ cores e ≠ [] :=
  (learns_iff (s := start [] []) rfl rfl e.2).symm

theorem found_of_front {answers all : List (Answer Comp)} (h : answers <+: all)
    (hfound : found answers = true) :
    found all = true := by
  obtain ⟨rest, rfl⟩ := h
  cases answers with
  | nil => cases hfound
  | cons a answers =>
    cases a with
    | late => cases hfound
    | check c =>
      cases c with
      | unsat | unknown => cases hfound
      | sat v core => rfl

theorem mem_learnedFrom {calls : List (Call Comp)} :
    c ∈ learnedFrom k calls ↔ ∃ call ∈ calls, define call.entry.1 = k ∧ c ∈ cores call.entry := by
  simp only [learnedFrom, List.mem_flatMap, List.mem_filter, decide_eq_true_eq, and_assoc]

section Separation

variable {listings : List (List (Entry Comp))} (hfresh : dir.results .single = none)
include hfresh

theorem stored_of_fresh (earlier : List (List (Entry Comp))) :
    stored (earlier.foldl (main id) dir) = earlier.flatMap (lastCores id) := by
  rw [stored_foldl_main, stored, hfresh]
  rfl

theorem uncontaminated_of_separate
    (htwo : ∀ listing ∈ listings, ∀ e ∈ listing, selected id e = true → define e.1 ≠ .single)
    (hsep : Separate id dir listings) : Uncontaminated id listings := by
  have hdefine : ∀ listing ∈ listings, ∀ e ∈ listing.filter (selected id), define e.1 ≠ .single :=
    fun listing hl e he => htwo listing hl e (List.mem_filter.mp he).1 (List.mem_filter.mp he).2
  intro before listing after hsplit earlier hearlier e' he' hfinds e he hfound
  obtain ⟨c, hc⟩ := List.exists_mem_of_ne_nil _ (findsCore_iff.mp hfinds)
  obtain ⟨calls, call, rest, hcalls, hentry, hstored⟩ :=
    @exists_call_of_run Comp id dir before after listing e he
  have hin : c ∈ stored call.dir := by
    rw [hstored, stored_of_fresh hfresh]
    exact mem_flatMap_lastCores.mpr ⟨earlier, hearlier, e', he', hc⟩
  have hk' : define e'.1 ≠ .single :=
    hdefine earlier (by rw [hsplit]; exact List.mem_append_left _ hearlier) e'
    (List.mem_of_getLast? he')
  have hk : define e.1 ≠ .single := hdefine listing (by rw [hsplit]; simp) e he
  rw [← hsplit] at hcalls
  subst hentry
  rcases hsep _ _ _ hcalls call.entry.2 List.prefix_rfl c
    (stored_subset_asserted hfound hin) with hold | hown
  · obtain ⟨call', -, hsame, hc'⟩ := mem_learnedFrom.mp hold
    rw [← hsame]
    exact define_eq_of_mem_cores hk' (by rw [hsame]; exact hk) hc hc'
  · exact define_eq_of_mem_cores hk' hk hc hown

theorem separate_of_uncontaminated (hcond : Uncontaminated id listings) :
    Separate id dir listings := by
  intro before call after hcalls answers hprefix c hc
  rcases mem_asserted hc with ⟨hfound, hstored⟩ | hown
  · left
    obtain ⟨earlier, listing, later, inside, rest, hsplit, hrun, rfl⟩ := exists_run hcalls
    have hcall : call ∈ runCalls id (earlier.foldl (main id) dir) listing := by rw [hrun]; simp
    obtain ⟨hselected, hsame⟩ := mem_runCalls hcall
    rw [hsame, stored_of_fresh hfresh] at hstored
    obtain ⟨l, hl, e, he, hce⟩ := mem_flatMap_lastCores.mp hstored
    have hfinds := findsCore_iff.mpr (List.ne_nil_of_mem hce)
    have hkinds := hcond earlier listing later hsplit l hl e he hfinds call.entry hselected
      (found_of_front hprefix hfound)
    obtain ⟨before', after', rfl⟩ := List.append_of_mem hl
    obtain ⟨calls, call', rest', hcalls', hentry, -⟩ :=
      @exists_call_of_run Comp id dir before' after' l e (List.mem_of_getLast? he)
    refine mem_learnedFrom.mpr ⟨call', List.mem_append_left _ ?_, ?_, ?_⟩
    · rw [hcalls']
      simp
    · rw [hentry, hkinds]
    · rw [hentry]
      exact hce
  · exact Or.inr hown

end Separation

/-- Two definitions keep their cores apart exactly if no run ends with a formula that has a usable
core while a later run finds a counterexample for the other definition. -/
theorem separate_iff {listings : List (List (Entry Comp))} (hfresh : dir.results .single = none)
    (htwo : ∀ listing ∈ listings, ∀ e ∈ listing, selected id e = true → define e.1 ≠ .single) :
    Separate id dir listings ↔ Uncontaminated id listings :=
  ⟨uncontaminated_of_separate hfresh htwo, separate_of_uncontaminated hfresh⟩

end Runs

namespace TwoRuns

open DistillMain.Counterexample (empty oldEntry newEntry)

def old : Entry Unit := oldEntry [.check (.sat (fun _ => true) []), .check .unknown]

def new : Entry Unit := newEntry [.check (.sat allOld [((), false)]), .check .unknown]

theorem old_selected : selected "l2l3".toList old = true := by decide +kernel

theorem new_selected : selected "l2l3".toList new = true := by decide +kernel

theorem filter_old_new : [old, new].filter (selected "l2l3".toList) = [old, new] := by
  rw [List.filter_cons_of_pos old_selected, List.filter_cons_of_pos new_selected, List.filter_nil]

theorem filter_new_old : [new, old].filter (selected "l2l3".toList) = [new, old] := by
  rw [List.filter_cons_of_pos new_selected, List.filter_cons_of_pos old_selected, List.filter_nil]

theorem old_without_core : findsCore ("./".toList ++ old.1) 20 old.2 = false := by decide +kernel

theorem not_single : ∀ e ∈ [old, new], define e.1 ≠ .single := by decide +kernel

end TwoRuns

/-- Both runs end with the old definition, for which there is no core. -/
theorem old_last_separate :
    (∀ listing ∈ [[TwoRuns.new, TwoRuns.old], [TwoRuns.new, TwoRuns.old]], ∀ e ∈ listing,
      selected "l2l3".toList e = true → define e.1 ≠ .single) ∧
    Separate "l2l3".toList DistillMain.Counterexample.empty
      [[TwoRuns.new, TwoRuns.old], [TwoRuns.new, TwoRuns.old]] := by
  have htwo : ∀ listing ∈ [[TwoRuns.new, TwoRuns.old], [TwoRuns.new, TwoRuns.old]], ∀ e ∈ listing,
      selected "l2l3".toList e = true → define e.1 ≠ .single := by
    intro listing hl e he _
    have hlisting : listing = [TwoRuns.new, TwoRuns.old] := by simpa using hl
    rw [hlisting] at he
    exact TwoRuns.not_single e ((List.Perm.swap _ _ []).mem_iff.mp he)
  refine ⟨htwo, (separate_iff rfl htwo).mpr ?_⟩
  intro before listing after hsplit earlier hearlier e' he' hfinds
  have hmem : earlier ∈ [[TwoRuns.new, TwoRuns.old], [TwoRuns.new, TwoRuns.old]] := by
    rw [hsplit]
    exact List.mem_append_left _ hearlier
  have hlisting : earlier = [TwoRuns.new, TwoRuns.old] := by simpa using hmem
  rw [hlisting, TwoRuns.filter_new_old] at he'
  have hold : TwoRuns.old = e' := Option.some.inj he'
  rw [← hold, TwoRuns.old_without_core] at hfinds
  cases hfinds

/-- The first run ends with the new definition; the second one asserts its core for the old one. -/
theorem second_run_contaminated :
    (∀ listing ∈ [[TwoRuns.old, TwoRuns.new], [TwoRuns.old, TwoRuns.new]], ∀ e ∈ listing,
      selected "l2l3".toList e = true → define e.1 ≠ .single) ∧
    ¬Separate "l2l3".toList DistillMain.Counterexample.empty
      [[TwoRuns.old, TwoRuns.new], [TwoRuns.old, TwoRuns.new]] := by
  have htwo : ∀ listing ∈ [[TwoRuns.old, TwoRuns.new], [TwoRuns.old, TwoRuns.new]], ∀ e ∈ listing,
      selected "l2l3".toList e = true → define e.1 ≠ .single := by
    intro listing hl e he _
    have hlisting : listing = [TwoRuns.old, TwoRuns.new] := by simpa using hl
    rw [hlisting] at he
    exact TwoRuns.not_single e he
  refine ⟨htwo, fun hsep => ?_⟩
  have hsame := uncontaminated_of_separate rfl htwo hsep [[TwoRuns.old, TwoRuns.new]]
    [TwoRuns.old, TwoRuns.new] [] rfl _ (List.mem_singleton_self _) TwoRuns.new
    (by rw [TwoRuns.filter_old_new]; rfl) (by decide +kernel) TwoRuns.old
    (by rw [TwoRuns.filter_old_new]; exact List.mem_cons_self) rfl
  exact absurd hsame (by decide +kernel)

end CoreSeparation
