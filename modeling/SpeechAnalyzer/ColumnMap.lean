/-
`DBWrapper::InitializeColumnMap`: the loop over `conf/column_map.txt` that fills
the column map in both directions.

The loop asks the stream for its end only before a round, so after a last line
with a line feed it goes round once more: both extractions fail and it stores
the last pair again. It asks for nothing but the end, so on a stream that fails
without getting there it never stops.
-/
import SpeechAnalyzer.DBWrapper
import SpeechAnalyzer.Lib.IStream
import Mathlib.Data.List.Pairwise

namespace SpeechAnalyzer

open Lib

/-- The loop, as far as `n` rounds: `none` while it still runs. -/
def loadColumns : Nat → IStream → Str → Str → ColumnMap → Option ColumnMap
  | 0, _, _, _, _ => none
  | n + 1, file, opensmileFormat, postgresFormat, columnMap =>
    if file.eof then some columnMap
    else
      let (file, opensmileFormat) := file.extract opensmileFormat
      let (file, postgresFormat) := file.extract postgresFormat
      loadColumns n file opensmileFormat postgresFormat
        (KeyMap.put postgresFormat opensmileFormat (KeyMap.put opensmileFormat postgresFormat columnMap))

/-- `InitializeColumnMap` comes to an end, with this map. -/
def InitializesColumnMap (file : IStream) (columnMap : ColumnMap) : Prop :=
  ∃ n, loadColumns n file [] [] [] = some columnMap

/-- A round's two assignments. -/
def storePair (columnMap : ColumnMap) (p : Str × Str) : ColumnMap :=
  KeyMap.put p.2 p.1 (KeyMap.put p.1 p.2 columnMap)

/-- The file lists these pairs of names, in any layout. -/
def Lists (pairs : List (Str × Str)) (text : Str) : Prop :=
  IStream.Layout (pairs.flatMap fun p => [p.1, p.2]) text

/-- No name is in two rows. -/
def Apart (pairs : List (Str × Str)) : Prop :=
  pairs.Pairwise fun p q => p.1 ≠ q.1 ∧ p.1 ≠ q.2 ∧ p.2 ≠ q.1 ∧ p.2 ≠ q.2

/-- No name is in two different pairs; a pair may come again. -/
def NamesOnce (pairs : List (Str × Str)) : Prop :=
  ∀ p ∈ pairs, ∀ q ∈ pairs, p ≠ q → p.1 ≠ q.1 ∧ p.1 ≠ q.2 ∧ p.2 ≠ q.1 ∧ p.2 ≠ q.2

theorem Apart.namesOnce {pairs : List (Str × Str)} (h : Apart pairs) : NamesOnce pairs := by
  have hsymm : Std.Symm fun p q : Str × Str => p.1 ≠ q.1 ∧ p.1 ≠ q.2 ∧ p.2 ≠ q.1 ∧ p.2 ≠ q.2 :=
    ⟨fun _ _ h => ⟨h.1.symm, h.2.2.1.symm, h.2.1.symm, h.2.2.2.symm⟩⟩
  exact fun p hp q hq => h.forall hp hq

/-! ## The loop -/

theorem loadColumns_round {n : Nat} {file file' file'' : IStream} {o p o' p' : Str} {columnMap : ColumnMap}
    (heof : file.eof = false) (ho : file.extract o = (file', o')) (hp : file'.extract p = (file'', p')) :
    loadColumns (n + 1) file o p columnMap = loadColumns n file'' o' p' (storePair columnMap (o', p')) := by
  rw [loadColumns, heof, ho]
  simp only [hp]
  rfl

theorem loadColumns_end {n : Nat} {file : IStream} (heof : file.eof = true) (o p : Str) (columnMap : ColumnMap) :
    loadColumns (n + 1) file o p columnMap = some columnMap := by
  rw [loadColumns, heof]
  rfl

/-- The loop ends with the pairs stored, the last one perhaps twice. -/
theorem loadColumns_lists : ∀ {pairs : List (Str × Str)} {text : Str}, Lists pairs text →
    ∀ (o p : Str) (columnMap : ColumnMap), ∃ n, loadColumns n { rest := text } o p columnMap =
        some (pairs.foldl storePair columnMap) ∨
      loadColumns n { rest := text } o p columnMap =
        some (storePair (pairs.foldl storePair columnMap) (pairs.getLast?.getD (o, p)))
  | [], text, h, o, p, columnMap => by
    cases h with
    | blank hblank =>
      refine ⟨2, .inr ?_⟩
      rw [loadColumns_round rfl (IStream.extract_blank rfl hblank o) (IStream.extract_of_not_good rfl p),
        loadColumns_end rfl]
      rfl
  | (o', p') :: pairs, text, h, o, p, columnMap => by
    cases h with
    | word hblanks hne hword hrest h =>
      have ho := IStream.extract_word (s := { rest := _ }) rfl rfl hblanks hne hword hrest o
      rw [if_neg (h.ne_nil (by simp))] at ho
      cases h with
      | @word _ _ rest _ hblanks' hne' hword' hrest' h =>
        have hp := IStream.extract_word (s := { rest := _ }) rfl rfl hblanks' hne' hword' hrest' p
        by_cases hend : rest = []
        · -- The file ends with this pair.
          have hpairs : pairs = [] := by
            by_contra hpairs
            obtain ⟨q, qs, rfl⟩ := List.exists_cons_of_ne_nil hpairs
            exact h.ne_nil (by simp) hend
          rw [if_pos hend] at hp
          refine ⟨2, .inl ?_⟩
          rw [loadColumns_round rfl ho hp, loadColumns_end rfl, hpairs]
          rfl
        · rw [if_neg hend] at hp
          obtain ⟨n, hn⟩ := loadColumns_lists h o' p' (storePair columnMap (o', p'))
          refine ⟨n + 1, ?_⟩
          rw [loadColumns_round rfl ho hp]
          rw [List.getLast?_cons]
          exact hn

/-! ## Termination -/

theorem loadColumns_stuck : ∀ (n : Nat) {file : IStream}, file.Stuck → ∀ (o p : Str) (columnMap : ColumnMap),
    loadColumns n file o p columnMap = none
  | 0, _, _, _, _, _ => rfl
  | n + 1, file, h, o, p, columnMap => by
    rw [loadColumns_round h.1 rfl rfl]
    exact loadColumns_stuck n ((h.extract o).extract p) _ _ _

/-- One round more than there are characters, and one to see the end. -/
theorem loadColumns_within : ∀ {n : Nat} {file : IStream}, file.Within n → ∀ (o p : Str) (columnMap : ColumnMap),
    ∃ columnMap', loadColumns (n + 2) file o p columnMap = some columnMap'
  | n, file, h, o, p, columnMap => by
    cases heof : file.eof with
    | true => exact ⟨columnMap, loadColumns_end heof o p columnMap⟩
    | false =>
      rw [loadColumns_round heof rfl rfl]
      cases n with
      | zero => exact ⟨_, loadColumns_end (IStream.eof_extract (h.extract_zero o) p) _ _ _⟩
      | succ n => exact loadColumns_within (((h.extract o).extract p).mono (Nat.sub_le n 1)) _ _ _

/-- Whatever the state of the stream, the loop ends unless the stream is stuck. -/
theorem loadColumns_ends_iff (file : IStream) (o p : Str) (columnMap : ColumnMap) :
    (∃ n columnMap', loadColumns n file o p columnMap = some columnMap') ↔ ¬ file.Stuck := by
  refine ⟨?_, ?_⟩
  · intro hends hstuck
    obtain ⟨n, columnMap', hn⟩ := hends
    rw [loadColumns_stuck n hstuck] at hn
    cases hn
  · intro hstuck
    obtain ⟨columnMap', h⟩ := loadColumns_within (IStream.not_stuck_iff.mp hstuck) o p columnMap
    exact ⟨_, columnMap', h⟩

/-- **The loop of `InitializeColumnMap` ends exactly on a file that can be
opened and read to its end.** On any other every `DBWrapper` hangs in its
constructor. -/
theorem initializes_iff (file : IStream.File) :
    (∃ columnMap, InitializesColumnMap (.ofFile file) columnMap) ↔ ∃ text, file = .opened text false := by
  have hends := loadColumns_ends_iff (.ofFile file) [] [] []
  rw [IStream.stuck_ofFile, not_not] at hends
  rw [← hends]
  exact exists_comm

/-- Without the file, the fail bit is set from the start. -/
theorem missing_file_hangs : ¬ ∀ file : IStream.File, ∃ columnMap, InitializesColumnMap (.ofFile file) columnMap := by
  intro h
  obtain ⟨columnMap, n, hn⟩ := h .unopened
  have hstuck : (IStream.ofFile .unopened).Stuck := ⟨rfl, .inl rfl⟩
  rw [loadColumns_stuck n hstuck] at hn
  cases hn

/-! ## The map -/

theorem lookup_storePair (columnMap : ColumnMap) (p : Str × Str) (k : Str) :
    (storePair columnMap p).lookup k =
      if k = p.2 then some p.1 else if k = p.1 then some p.2 else columnMap.lookup k := by
  rw [storePair, KeyMap.lookup_put, KeyMap.lookup_put]
  congr

/-- Names of none of the rows are left alone. -/
theorem lookup_foldl_of_not_mem {k : Str} : ∀ {pairs : List (Str × Str)} (columnMap : ColumnMap),
    (∀ p ∈ pairs, k ≠ p.1 ∧ k ≠ p.2) → (pairs.foldl storePair columnMap).lookup k = columnMap.lookup k
  | [], _, _ => rfl
  | p :: pairs, columnMap, h => by
    obtain ⟨h₁, h₂⟩ := h p (by simp)
    rw [List.foldl_cons, lookup_foldl_of_not_mem _ fun q hq => h q (List.mem_cons_of_mem _ hq), lookup_storePair,
      if_neg h₂, if_neg h₁]

/-- Each row's names lead to each other. -/
theorem lookup_foldl_of_mem {p : Str × Str} : ∀ {pairs : List (Str × Str)} (columnMap : ColumnMap), NamesOnce pairs →
    p ∈ pairs → (pairs.foldl storePair columnMap).lookup p.1 = some p.2 ∧
      (pairs.foldl storePair columnMap).lookup p.2 = some p.1
  | [], _, _, h => by simp at h
  | q :: pairs, columnMap, honce, h => by
    rw [List.foldl_cons]
    by_cases hp : p ∈ pairs
    · exact lookup_foldl_of_mem _ (fun r hr r' hr' => honce r (.tail _ hr) r' (.tail _ hr')) hp
    · have hpq : p = q := (List.mem_cons.mp h).resolve_right hp
      subst hpq
      have hother (r : Str × Str) (hr : r ∈ pairs) := honce p (.head _) r (.tail _ hr) fun heq => hp (heq ▸ hr)
      rw [lookup_foldl_of_not_mem _ fun r hr => ⟨(hother r hr).1, (hother r hr).2.1⟩,
        lookup_foldl_of_not_mem _ fun r hr => ⟨(hother r hr).2.2.1, (hother r hr).2.2.2⟩, lookup_storePair,
        lookup_storePair, if_pos rfl]
      by_cases heq : p.1 = p.2
      · simp [heq]
      · simp [heq]

/-- Storing a row again changes no answer. -/
theorem lookup_storePair_again (columnMap : ColumnMap) {pairs : List (Str × Str)} {p : Str × Str}
    (honce : NamesOnce pairs) (hp : p ∈ pairs) (k : Str) :
    (storePair (pairs.foldl storePair columnMap) p).lookup k = (pairs.foldl storePair columnMap).lookup k := by
  obtain ⟨h₁, h₂⟩ := lookup_foldl_of_mem columnMap honce hp
  rw [lookup_storePair]
  split
  · next hk => rw [hk, h₂]
  split
  · next hk => rw [hk, h₁]
  · rfl

/-- **What the file's rows make of the map**: the names of each row lead to each
other, and no other name leads anywhere, but for the empty one when there are
no rows. -/
theorem initializesColumnMap {pairs : List (Str × Str)} {text : Str} (h : Lists pairs text) (honce : NamesOnce pairs) :
    ∃ columnMap, InitializesColumnMap { rest := text } columnMap ∧
      (∀ p ∈ pairs, columnMap.lookup p.1 = some p.2 ∧ columnMap.lookup p.2 = some p.1) ∧
      ∀ k, (∀ p ∈ pairs, k ≠ p.1 ∧ k ≠ p.2) → pairs ≠ [] ∨ k ≠ [] → columnMap.lookup k = none := by
  have hmem : ∀ p ∈ pairs, (pairs.foldl storePair []).lookup p.1 = some p.2 ∧
      (pairs.foldl storePair []).lookup p.2 = some p.1 := fun p hp => lookup_foldl_of_mem [] honce hp
  have hnot : ∀ k, (∀ p ∈ pairs, k ≠ p.1 ∧ k ≠ p.2) → (pairs.foldl storePair []).lookup k = none := fun k hk =>
    lookup_foldl_of_not_mem [] hk
  obtain ⟨n, hn | hn⟩ := loadColumns_lists h [] [] []
  · exact ⟨_, ⟨n, hn⟩, hmem, fun k hk _ => hnot k hk⟩
  cases hlast : pairs.getLast? with
  | some q =>
    have hq : q ∈ pairs := List.mem_of_getLast? hlast
    have hagain (k : Str) := lookup_storePair_again [] honce hq k
    rw [hlast] at hn
    refine ⟨_, ⟨n, hn⟩, fun p hp => ?_, fun k hk _ => ?_⟩
    · rw [Option.getD_some, hagain, hagain]
      exact hmem p hp
    · rw [Option.getD_some, hagain]
      exact hnot k hk
  | none =>
    have hpairs : pairs = [] := List.getLast?_eq_none_iff.mp hlast
    subst hpairs
    refine ⟨_, ⟨n, hn⟩, by simp, fun k _ hk => ?_⟩
    have hk : k ≠ [] := hk.resolve_left (by simp)
    rw [lookup_storePair]
    simp [hk]

/-! ## What the map holds -/

theorem loadColumns_succ : ∀ {n : Nat} {file : IStream} {o p : Str} {columnMap m : ColumnMap},
    loadColumns n file o p columnMap = some m → loadColumns (n + 1) file o p columnMap = some m
  | n + 1, file, o, p, columnMap, m, h => by
    cases heof : file.eof with
    | true =>
      rw [loadColumns_end heof] at h
      rw [loadColumns_end heof, h]
    | false =>
      rw [loadColumns_round heof rfl rfl] at h
      rw [loadColumns_round heof rfl rfl]
      exact loadColumns_succ h

theorem loadColumns_mono {n n' : Nat} (hle : n ≤ n') {file : IStream} {o p : Str} {columnMap m : ColumnMap}
    (h : loadColumns n file o p columnMap = some m) : loadColumns n' file o p columnMap = some m := by
  induction hle with
  | refl => exact h
  | step _ ih => exact loadColumns_succ ih

/-- The loop leaves one map. -/
theorem InitializesColumnMap.unique {file : IStream} {m m' : ColumnMap} (h : InitializesColumnMap file m)
    (h' : InitializesColumnMap file m') : m = m' := by
  obtain ⟨n, hn⟩ := h
  obtain ⟨n', hn'⟩ := h'
  have hmax := loadColumns_mono (Nat.le_max_left n n') hn
  rw [loadColumns_mono (Nat.le_max_right n n') hn'] at hmax
  exact (Option.some.inj hmax).symm

theorem loadColumns_sorted : ∀ {n : Nat} {file : IStream} {o p : Str} {columnMap m : ColumnMap},
    KeyMap.Sorted columnMap → loadColumns n file o p columnMap = some m → KeyMap.Sorted m
  | n + 1, file, o, p, columnMap, m, hsorted, h => by
    cases heof : file.eof with
    | true =>
      rw [loadColumns_end heof] at h
      exact Option.some.inj h ▸ hsorted
    | false =>
      rw [loadColumns_round heof rfl rfl] at h
      exact loadColumns_sorted hsorted.put.put h

/-- The map leads from each name of a pair to the other, and has no other entry. -/
structure BothWays (pairs : List (Str × Str)) (columnMap : ColumnMap) : Prop where
  sorted : KeyMap.Sorted columnMap
  entries : ∀ k v, (k, v) ∈ columnMap ↔ ∃ p ∈ pairs, (k, v) = p ∨ (k, v) = p.swap

namespace BothWays

variable {pairs : List (Str × Str)} {columnMap : ColumnMap}

theorem of_lookup (hsorted : KeyMap.Sorted columnMap)
    (hrows : ∀ p ∈ pairs, columnMap.lookup p.1 = some p.2 ∧ columnMap.lookup p.2 = some p.1)
    (hnone : ∀ k, (∀ p ∈ pairs, k ≠ p.1 ∧ k ≠ p.2) → columnMap.lookup k = none) : BothWays pairs columnMap := by
  refine ⟨hsorted, fun k v => ?_⟩
  rw [hsorted.mem_iff]
  refine ⟨?_, ?_⟩
  · intro hk
    by_cases hname : ∀ p ∈ pairs, k ≠ p.1 ∧ k ≠ p.2
    · rw [hnone k hname] at hk
      cases hk
    · push Not at hname
      obtain ⟨p, hp, hname⟩ := hname
      refine ⟨p, hp, ?_⟩
      by_cases hfirst : k = p.1
      · subst hfirst
        rw [(hrows p hp).1] at hk
        exact .inl (Prod.ext rfl (Option.some.inj hk).symm)
      · have hsecond := hname hfirst
        subst hsecond
        rw [(hrows p hp).2] at hk
        exact .inr (Prod.ext rfl (Option.some.inj hk).symm)
  · intro hparts
    obtain ⟨p, hp, hkv⟩ := hparts
    rcases hkv with rfl | hkv
    · exact (hrows _ hp).1
    · obtain ⟨rfl, rfl⟩ := Prod.mk.inj hkv
      exact (hrows p hp).2

theorem lookup_iff (h : BothWays pairs columnMap) {k v : Str} :
    columnMap.lookup k = some v ↔ ∃ p ∈ pairs, (k, v) = p ∨ (k, v) = p.swap := by
  rw [← h.sorted.mem_iff, h.entries]

/-- It is its own inverse. -/
theorem lookup_lookup (h : BothWays pairs columnMap) {k v : Str} (hk : columnMap.lookup k = some v) :
    columnMap.lookup v = some k := by
  obtain ⟨p, hp, hkv⟩ := h.lookup_iff.mp hk
  refine h.lookup_iff.mpr ⟨p, hp, ?_⟩
  rcases hkv with rfl | hkv
  · exact .inr rfl
  · exact .inl (Prod.swap_inj.mp hkv)

theorem injective (h : BothWays pairs columnMap) {k k' v : Str} (hk : columnMap.lookup k = some v)
    (hk' : columnMap.lookup k' = some v) : k = k' := by
  have hv := h.lookup_lookup hk
  rw [h.lookup_lookup hk'] at hv
  exact (Option.some.inj hv).symm

end BothWays

/-- **The column map of a file that lists pairs**, however it is laid out: both
ways between the names of each pair and nothing else, so it is its own inverse
and injective. -/
theorem columnMap_of_lists {pairs : List (Str × Str)} {text : Str} (h : Lists pairs text) (hne : pairs ≠ [])
    (honce : NamesOnce pairs) : ∃ columnMap,
      (∀ m, InitializesColumnMap (.ofFile (.opened text false)) m ↔ m = columnMap) ∧ BothWays pairs columnMap ∧
      (∀ k v, columnMap.lookup k = some v → columnMap.lookup v = some k) ∧
      ∀ k k' v, columnMap.lookup k = some v → columnMap.lookup k' = some v → k = k' := by
  obtain ⟨columnMap, hinit, hrows, hnone⟩ := initializesColumnMap h honce
  have hsorted : KeyMap.Sorted columnMap := by
    obtain ⟨n, hn⟩ := hinit
    exact loadColumns_sorted .nil hn
  have hboth : BothWays pairs columnMap := .of_lookup hsorted hrows fun k hk => hnone k hk (.inl hne)
  refine ⟨columnMap, fun m => ⟨fun hm => hm.unique hinit, fun hm => hm ▸ hinit⟩, hboth, ?_, ?_⟩
  · exact fun k v => hboth.lookup_lookup
  · exact fun k k' v => hboth.injective

/-- The file as it is: a row a line, with one blank in it. -/
def rowLines (pairs : List (Str × Str)) : Str := pairs.flatMap fun p => p.1 ++ ' ' :: (p.2 ++ ['\n'])

theorem lists_rowLines : ∀ {pairs : List (Str × Str)}, (∀ p ∈ pairs, p.1 ≠ [] ∧ p.2 ≠ []) →
    (∀ p ∈ pairs, (∀ c ∈ p.1, isSpace c = false) ∧ ∀ c ∈ p.2, isSpace c = false) → Lists pairs (rowLines pairs)
  | [], _, _ => .blank (by simp [rowLines])
  | p :: pairs, hne, hwords => by
    have ih := lists_rowLines (fun q hq => hne q (.tail _ hq)) fun q hq => hwords q (.tail _ hq)
    have hline : rowLines (p :: pairs) = [] ++ (p.1 ++ ([' '] ++ (p.2 ++ '\n' :: rowLines pairs))) := by
      simp [rowLines]
    have hsecond := @IStream.Layout.word [' '] p.2 _ _ (by decide) (hne p (.head _)).2 (hwords p (.head _)).2
      (by simp [isSpace]) (ih.cons_blank (c := '\n') (by decide))
    rw [hline]
    exact .word (by simp) (hne p (.head _)).1 (hwords p (.head _)).1 (by simp [isSpace]) hsecond

/-- Two of its rows. -/
def waveRows : List (Str × Str) :=
  [("wave_RMSenergy_sma".toList, "wave_rmsenergy_sma".toList), ("wave_zcr_sma".toList, "wave_zcr_sma".toList)]

theorem columnMap_of_lists_wave : ∃ columnMap,
    (∀ m, InitializesColumnMap (.ofFile (.opened (rowLines waveRows) false)) m ↔ m = columnMap) ∧
    BothWays waveRows columnMap ∧
    (∀ k v, columnMap.lookup k = some v → columnMap.lookup v = some k) ∧
    ∀ k k' v, columnMap.lookup k = some v → columnMap.lookup k' = some v → k = k' :=
  columnMap_of_lists (lists_rowLines (by decide) (by decide)) (by decide) (by unfold NamesOnce; decide)

end SpeechAnalyzer
