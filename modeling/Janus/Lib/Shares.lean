import Janus.Lib.Json

/-!
# Texts that are shared out

A text that several arguments are put into, one after the other, is cut into shares, each the
share of one argument or of none. Where the replacements of an argument meet nothing beyond its
own shares, they change these and nothing else (`runPasses_whole`), and so the order of the
arguments plays no part (`foldl_whole`).
-/

namespace Janus.Text

set_option autoImplicit false

/-- A stretch of a text, and the argument that has it. -/
structure Share where
  owner : Option Str
  text : Str
  deriving Repr, DecidableEq

def whole (shares : List Share) : Str := shares.flatMap Share.text

/-- What a replacement meets in `s`, with `rest` behind it, is own text and ends in `s`. The
counter skips what is left of an occurrence, as that of the replacement does. -/
def MeetsOwn (old : Str) (own : Bool) : Nat → Str → Str → Prop
  | _, [], _ => True
  | skip + 1, _ :: s, rest => MeetsOwn old own skip s rest
  | 0, c :: s, rest =>
    if old.isPrefixOf (c :: s ++ rest) then
      (own = true ∧ old.isPrefixOf (c :: s) = true) ∧ MeetsOwn old own (old.length - 1) s rest
    else MeetsOwn old own 0 s rest

/-- The replacement of an argument meets nothing but its own shares. -/
def Confined (old k : Str) : List Share → Prop
  | [] => True
  | p :: shares => MeetsOwn old (p.owner = some k) 0 p.text (whole shares) ∧ Confined old k shares

/-- Replacements, one after the other. -/
def runPasses (passes : List (Str × Str)) (s : Str) : Str :=
  passes.foldl (fun s p => replaceAll s p.1 p.2) s

def Share.run (k : Str) (passes : List (Str × Str)) (p : Share) : Share :=
  if p.owner = some k then { p with text := runPasses passes p.text } else p

def PassesConfined (k : Str) : List (Str × Str) → List Share → Prop
  | [], _ => True
  | p :: passes, shares =>
    Confined p.1 k shares ∧ PassesConfined k passes (shares.map (Share.run k [p]))

section Arguments
variable {α : Type} (passes : Str → α → List (Str × Str))

/-- Each argument keeps to its own shares in the text that the arguments before it have left. -/
def EachConfined : List (Str × α) → List Share → Prop
  | [], _ => True
  | m :: order, shares =>
    PassesConfined m.1 (passes m.1 m.2) shares ∧
      EachConfined order (shares.map (Share.run m.1 (passes m.1 m.2)))

/-- A share once all arguments have been put in. -/
def Share.filled (args : List (Str × α)) (p : Share) : Str :=
  ((p.owner.bind fun k => (lookup k args).map (passes k)).map fun ps => runPasses ps p.text).getD p.text

end Arguments

instance instDecidableMeetsOwn (old : Str) (own : Bool) :
    (n : Nat) → (s rest : Str) → Decidable (MeetsOwn old own n s rest)
  | _, [], _ => .isTrue (by unfold MeetsOwn; trivial)
  | skip + 1, _ :: s, rest => instDecidableMeetsOwn old own skip s rest
  | 0, c :: s, rest =>
    have := instDecidableMeetsOwn old own (old.length - 1) s rest
    have := instDecidableMeetsOwn old own 0 s rest
    inferInstanceAs (Decidable (if old.isPrefixOf (c :: s ++ rest) = true then
      (own = true ∧ old.isPrefixOf (c :: s) = true) ∧ MeetsOwn old own (old.length - 1) s rest
      else MeetsOwn old own 0 s rest))

instance instDecidableConfined (old k : Str) : (shares : List Share) → Decidable (Confined old k shares)
  | [] => .isTrue trivial
  | _ :: shares =>
    have := instDecidableConfined old k shares
    inferInstanceAs (Decidable (_ ∧ _))

instance instDecidablePassesConfined (k : Str) :
    (passes : List (Str × Str)) → (shares : List Share) → Decidable (PassesConfined k passes shares)
  | [], _ => .isTrue trivial
  | p :: passes, shares =>
    have := instDecidablePassesConfined k passes (shares.map (Share.run k [p]))
    inferInstanceAs (Decidable (_ ∧ _))

instance instDecidableEachConfined {α : Type} (passes : Str → α → List (Str × Str)) :
    (order : List (Str × α)) → (shares : List Share) → Decidable (EachConfined passes order shares)
  | [], _ => .isTrue trivial
  | m :: order, shares =>
    have := instDecidableEachConfined passes order (shares.map (Share.run m.1 (passes m.1 m.2)))
    inferInstanceAs (Decidable (_ ∧ _))

theorem whole_singleton (p : Share) : whole [p] = p.text := List.flatMap_singleton Share.text p

/-- What is met ends in the text, so the pass goes on behind it as if it stood alone. -/
theorem replaceFrom_append (new : Str) {old s rest : Str} {own : Bool} {n : Nat} (hn : n ≤ s.length)
    (h : MeetsOwn old own n s rest) :
    replaceFrom old new n (s ++ rest) = replaceFrom old new n s ++ replaceFrom old new 0 rest := by
  fun_induction MeetsOwn old own n s rest with
  | case1 n rest =>
    obtain rfl : n = 0 := Nat.le_zero.mp hn
    rfl
  | case2 n c s rest ih => exact ih (Nat.le_of_succ_le_succ hn) h
  | case3 c s rest hmeets ih =>
    obtain ⟨⟨_, hends⟩, hrest⟩ := h
    have hlen : old.length ≤ s.length + 1 := (List.isPrefixOf_iff_prefix.mp hends).length_le
    have hstep := ih (by omega) hrest
    rw [List.cons_append] at hmeets ⊢
    rw [replaceFrom, if_pos hmeets, hstep, replaceFrom, if_pos hends, List.append_assoc]
  | case4 c s rest hmeets ih =>
    have hends : ¬ old.isPrefixOf (c :: s) = true := by
      intro hp
      refine hmeets (List.isPrefixOf_iff_prefix.mpr ?_)
      exact (List.isPrefixOf_iff_prefix.mp hp).trans (List.prefix_append _ _)
    have hstep := ih (Nat.zero_le _) h
    rw [List.cons_append] at hmeets ⊢
    rw [replaceFrom, if_neg hmeets, hstep, replaceFrom, if_neg hends, List.cons_append]

/-- A text that is not the argument's own is not met. -/
theorem replaceFrom_other {old new s rest : Str} (h : MeetsOwn old false 0 s rest) :
    replaceFrom old new 0 s = s := by
  induction s with
  | nil => rfl
  | cons c s ih =>
    rw [MeetsOwn] at h
    split at h
    · exact absurd h.1.1 Bool.false_ne_true
    · rename_i hmeets
      have hends : ¬ old.isPrefixOf (c :: s) = true := by
        intro hp
        refine hmeets (List.isPrefixOf_iff_prefix.mpr ?_)
        exact (List.isPrefixOf_iff_prefix.mp hp).trans (List.prefix_append _ _)
      rw [replaceFrom, if_neg hends, ih h]

theorem runPasses_one (old new s : Str) : runPasses [(old, new)] s = replaceAll s old new := rfl

theorem Share.run_nil (k : Str) (p : Share) : p.run k [] = p := by
  unfold Share.run
  split
  · rfl
  · rfl

theorem Share.run_run (k : Str) (first : Str × Str) (passes : List (Str × Str)) (p : Share) :
    (p.run k [first]).run k passes = p.run k (first :: passes) := by
  unfold Share.run
  by_cases hp : p.owner = some k
  · rw [if_pos hp, if_pos hp, if_pos hp]
    rfl
  · rw [if_neg hp, if_neg hp, if_neg hp]

theorem Share.owner_run (k : Str) (passes : List (Str × Str)) (p : Share) : (p.run k passes).owner = p.owner := by
  unfold Share.run
  split
  · rfl
  · rfl

theorem replaceAll_whole {old k : Str} (hold : old ≠ []) (new : Str) {shares : List Share}
    (h : Confined old k shares) :
    replaceAll (whole shares) old new = whole (shares.map (Share.run k [(old, new)])) := by
  rw [replaceAll, if_neg hold]
  induction shares with
  | nil => rfl
  | cons p shares ih =>
    obtain ⟨hp, hshares⟩ := h
    have happend := replaceFrom_append new (Nat.zero_le _) hp
    have hrest := ih hshares
    rw [whole, List.flatMap_cons, List.map_cons, whole, List.flatMap_cons]
    unfold whole at happend hrest
    rw [happend, hrest]
    congr 1
    unfold Share.run
    by_cases howner : p.owner = some k
    · rw [if_pos howner, runPasses_one, replaceAll, if_neg hold]
    · rw [decide_eq_false howner] at hp
      rw [if_neg howner, replaceFrom_other hp]

theorem runPasses_whole {k : Str} {passes : List (Str × Str)} (hne : ∀ p ∈ passes, p.1 ≠ [])
    {shares : List Share} (h : PassesConfined k passes shares) :
    runPasses passes (whole shares) = whole (shares.map (Share.run k passes)) := by
  induction passes generalizing shares with
  | nil =>
    rw [List.map_congr_left fun p _ => p.run_nil k, List.map_id']
    rfl
  | cons p passes ih =>
    obtain ⟨hp, hpasses⟩ := h
    obtain ⟨hold, hne⟩ := List.forall_mem_cons.mp hne
    have hstep := ih hne hpasses
    have hrun : Share.run k passes ∘ Share.run k [p] = Share.run k (p :: passes) :=
      funext fun q => q.run_run k p passes
    rw [List.map_map, hrun] at hstep
    rw [runPasses, List.foldl_cons, replaceAll_whole hold p.2 hp]
    exact hstep

section Arguments
variable {α : Type} {passes : Str → α → List (Str × Str)}

theorem Share.filled_run {k : Str} {v : α} {args : List (Str × α)} (hk : lookup k args = none) (p : Share) :
    (p.run k (passes k v)).filled passes args = p.filled passes ((k, v) :: args) := by
  unfold Share.filled
  rw [Share.owner_run]
  cases howner : p.owner with
  | none =>
    rw [Share.run, if_neg (by simp [howner])]
    rfl
  | some j =>
    by_cases hj : k = j
    · subst hj
      rw [Share.run, if_pos howner]
      simp [lookup, hk]
    · rw [Share.run, if_neg (by simp [howner, Ne.symm hj])]
      simp [lookup, hj]

/-- All arguments put in, each keeping to its own shares. -/
theorem foldl_whole (hne : ∀ k v, ∀ p ∈ passes k v, p.1 ≠ []) {order : List (Str × α)}
    (hnodup : (order.map Prod.fst).Nodup) {shares : List Share} (h : EachConfined passes order shares) :
    order.foldl (fun s m => runPasses (passes m.1 m.2) s) (whole shares) =
      shares.flatMap (Share.filled passes order) := by
  induction order generalizing shares with
  | nil =>
    refine List.flatMap_congr fun p _ => ?_
    unfold Share.filled
    cases p.owner with
    | none => rfl
    | some k => rfl
  | cons m order ih =>
    obtain ⟨k, v⟩ := m
    obtain ⟨hm, horder⟩ := h
    obtain ⟨hk, hnodup⟩ := List.nodup_cons.mp hnodup
    have hnew : lookup k order = none :=
      lookup_eq_none_of_forall fun m hmem he => hk (List.mem_map.mpr ⟨m, hmem, he⟩)
    rw [List.foldl_cons]
    dsimp only at hm horder ⊢
    rw [runPasses_whole (hne k v) hm, ih hnodup horder, List.flatMap_map]
    exact List.flatMap_congr fun p _ => p.filled_run hnew

/-- So each order of the arguments gives the same text. -/
theorem foldl_whole_perm (hne : ∀ k v, ∀ p ∈ passes k v, p.1 ≠ []) {order args : List (Str × α)}
    (hnodup : (args.map Prod.fst).Nodup) (hperm : order.Perm args) {shares : List Share}
    (h : EachConfined passes order shares) :
    order.foldl (fun s m => runPasses (passes m.1 m.2) s) (whole shares) =
      shares.flatMap (Share.filled passes args) := by
  rw [foldl_whole hne ((hperm.map Prod.fst).nodup_iff.mpr hnodup) h]
  refine List.flatMap_congr fun p _ => ?_
  unfold Share.filled
  congr 2
  exact Option.bind_congr fun k _ => by rw [lookup_perm k hnodup hperm.symm]

theorem meetsOwn_alone (old : Str) (n : Nat) (s : Str) : MeetsOwn old true n s [] := by
  induction s generalizing n with
  | nil => unfold MeetsOwn; trivial
  | cons c s ih =>
    cases n with
    | zero =>
      rw [MeetsOwn, List.append_nil]
      split
      · rename_i hmeets
        exact ⟨⟨rfl, hmeets⟩, ih _⟩
      · exact ih 0
    | succ n => exact ih n

theorem passesConfined_alone (k : Str) (ps : List (Str × Str)) (s : Str) :
    PassesConfined k ps [⟨some k, s⟩] := by
  induction ps generalizing s with
  | nil => trivial
  | cons p ps ih =>
    refine ⟨⟨?_, trivial⟩, ?_⟩
    · rw [decide_eq_true rfl]
      exact meetsOwn_alone p.1 0 s
    · rw [List.map_singleton, Share.run, if_pos rfl]
      exact ih _

/-- One argument has the whole text. -/
theorem eachConfined_alone (m : Str × α) (s : Str) : EachConfined passes [m] [⟨some m.1, s⟩] :=
  ⟨passesConfined_alone m.1 (passes m.1 m.2) s, trivial⟩

end Arguments

end Janus.Text
