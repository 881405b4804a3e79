import Rollerball.Lib.Proc

/-!
# Polled loops

A polled loop reads the flag after each of its steps and leaves when the flag has fallen. What it
has published by then is what the undisturbed loop publishes over the steps it has completed.
-/

universe u

namespace Proc

variable {Q A O R S T X : Type u}

/-- The reads from `i` on before `j` give true. -/
def Holds (flag : Nat → Bool) (i j : Nat) : Prop := ∀ k, i ≤ k → k < j → flag k = true

section Holds

variable {eval : Q → A} {flag : Nat → Bool} {p : Proc Q A O R} {f : R → Proc Q A O S}
  {i j j' : Nat}

theorem Holds.mono (h : Holds flag i j') (hj : j ≤ j') : Holds flag i j :=
  fun k hik hkj => h k hik (hkj.trans_le hj)

theorem Holds.from (h : Holds flag i j') (hi : i ≤ j) : Holds flag j j' :=
  fun k hjk hkj => h k (hi.trans hjk) hkj

theorem Holds.trans (h : Holds flag i j) (h' : Holds flag j j') : Holds flag i j' := by
  intro k hik hkj
  by_cases hk : k < j
  · exact h k hik hk
  · exact h' k (not_lt.mp hk) hkj

theorem Holds.succ (h : Holds flag i j) (hj : flag j = true) : Holds flag i (j + 1) := by
  apply h.trans
  intro k hjk hkj
  rwa [show k = j by omega]

theorem Falls.holds (h : Falls flag) (hj : flag j = true) : Holds flag i j := by
  intro k _ hkj
  by_contra hk
  rw [h.of_le hkj.le (Bool.eq_false_iff.mpr hk)] at hj
  exact Bool.false_ne_true hj

def fallsAt (j t : Nat) : Bool := decide (t < j)

theorem fallsAt_falls (j : Nat) : Falls (fallsAt j) := by
  intro t ht
  simp only [fallsAt, decide_eq_false_iff_not] at ht ⊢
  omega

theorem holds_fallsAt (hi : i ≤ j) : Holds (fallsAt j) i j' ↔ j' ≤ j := by
  simp only [Holds, fallsAt, decide_eq_true_eq]
  constructor
  · intro h
    by_contra hlt
    exact Nat.lt_irrefl j (h j hi (not_le.mp hlt))
  · intro hle t _ ht
    exact ht.trans_le hle

theorem run_of_holds (h : Holds flag i (p.run eval (fun _ => true) i).reads) :
    p.run eval flag i = p.run eval (fun _ => true) i := by
  induction p generalizing i with
  | done r => rfl
  | poll k ih =>
    rw [run_poll] at h
    rw [run_poll, run_poll, h i le_rfl ((Nat.lt_succ_self i).trans_le le_reads)]
    exact ih true (h.from (Nat.le_succ i))
  | ask q k ih => exact ih (eval q) h
  | publish o k ih => rw [run_publish, run_publish, ih h]
  | timeout => rfl

theorem Falls.run_eq (h : Falls flag) (hend : flag (p.run eval flag i).reads = true) :
    p.run eval flag i = p.run eval (fun _ => true) i := by
  induction p generalizing i with
  | done r => rfl
  | poll k ih =>
    have hi : flag i = true :=
      (h.holds hend : Holds flag i _) i le_rfl ((Nat.lt_succ_self i).trans_le le_reads)
    rw [run_poll, hi] at hend
    rw [run_poll, run_poll, hi]
    exact ih true hend
  | ask q k ih => exact ih (eval q) hend
  | publish o k ih => rw [run_publish, run_publish, ih hend]
  | timeout => rfl

theorem Falls.end_false (h : Falls flag)
    (hfall : ¬Holds flag i (p.run eval (fun _ => true) i).reads) :
    flag (p.run eval flag i).reads = false := by
  by_contra hend
  rw [Bool.not_eq_false] at hend
  have hrun := h.run_eq hend
  rw [hrun] at hend
  exact hfall (h.holds hend)

theorem reads_le_bind : (p.run eval flag i).reads ≤ ((p.bind f).run eval flag i).reads := by
  rcases hp : p.run eval flag i with ⟨l, _ | r, j⟩
  · rw [run_bind_none hp]
  · rw [run_bind_some hp]
    exact le_reads

theorem Silent.run_some (hp : p.Silent) (htotal : (p.run eval flag i).result ≠ none) :
    ∃ r j, p.run eval flag i = ⟨[], some r, j⟩ := by
  have hstored : (p.run eval flag i).stored = [] :=
    List.eq_nil_iff_forall_not_mem.mpr (hp.run (fun _ => trivial) fun _ => trivial).1
  obtain ⟨l, r, j, hrun⟩ := run_of_result htotal
  exact ⟨r, j, by rw [← hstored, hrun]⟩

/-- After a silent part either nothing has been disturbed, or the flag has fallen and nothing more
is published. -/
theorem Silent.bind_run (hp : p.Silent) (htotal : (p.run eval flag i).result ≠ none)
    (hf : ∀ r, (f r).Quiet) (h : Falls flag) :
    (∃ r j, p.run eval (fun _ => true) i = ⟨[], some r, j⟩ ∧ Holds flag i j ∧
        (p.bind f).run eval flag i = (f r).run eval flag j) ∨
      (¬Holds flag i (p.run eval (fun _ => true) i).reads ∧
        ((p.bind f).run eval flag i).stored = [] ∧
        flag ((p.bind f).run eval flag i).reads = false) := by
  obtain ⟨r, j, hrun⟩ := hp.run_some htotal
  by_cases hholds : Holds flag i (p.run eval (fun _ => true) i).reads
  · have hsame := run_of_holds hholds
    rw [← hsame, hrun] at hholds
    exact Or.inl ⟨r, j, by rw [← hsame, hrun], hholds, by rw [run_bind_some hrun]; rfl⟩
  · have hj : flag j = false := by
      have hend := h.end_false hholds
      rwa [hrun] at hend
    refine Or.inr ⟨hholds, ?_, ?_⟩
    · rw [run_bind_some hrun, (hf r).stored_nil h hj, List.append_nil]
    · rw [run_bind_some hrun]
      exact h.of_le le_reads hj

end Holds

def publishSome : Option O → Proc Q A O R → Proc Q A O R
  | none, p => p
  | some o, p => publish o p

/-- A loop that runs `child` on each of its items, reads the flag, and goes on to the next state. -/
def polled (child : X → S → Proc Q A O T) (emit : X → S → T → Option O) (next : X → S → T → S)
    (leave : S → T → R) (finish : S → R) : List X → S → Proc Q A O R
  | [], s => done (finish s)
  | x :: xs, s => (child x s).bind fun t => poll fun search =>
      if !search then done (leave s t)
      else publishSome (emit x s t) (polled child emit next leave finish xs (next x s t))

section Polled

variable {eval : Q → A} {flag : Nat → Bool} {i : Nat}

theorem run_publishSome (o : Option O) (p : Proc Q A O R) :
    (publishSome o p).run eval flag i =
      ⟨o.toList ++ (p.run eval flag i).stored, (p.run eval flag i).result,
        (p.run eval flag i).reads⟩ := by
  cases o <;> rfl

variable {child : X → S → Proc Q A O T} {emit : X → S → T → Option O} {next : X → S → T → S}
  {leave : S → T → R} {finish : S → R}

theorem run_polled_cons {x : X} {s : S} {t : T} {j : Nat}
    (hchild : (child x s).run eval flag i = ⟨[], some t, j⟩) (hj : flag j = true) (xs : List X) :
    (polled child emit next leave finish (x :: xs) s).run eval flag i =
      (publishSome (emit x s t) (polled child emit next leave finish xs (next x s t))).run eval
        flag (j + 1) := by
  rw [polled, run_bind_some hchild, run_poll, hj]
  rfl

theorem polled_first (hsilent : ∀ x s, (child x s).Silent)
    (htotal : ∀ x s i, ((child x s).run eval flag i).result ≠ none) (h : Falls flag)
    (x : X) (xs : List X) (s : S) (i : Nat) :
    (∃ t j, (child x s).run eval (fun _ => true) i = ⟨[], some t, j⟩ ∧ Holds flag i (j + 1) ∧
        (polled child emit next leave finish (x :: xs) s).run eval flag i =
          (publishSome (emit x s t) (polled child emit next leave finish xs (next x s t))).run
            eval flag (j + 1)) ∨
      ((∀ ys, ¬Holds flag i
          ((polled child emit next leave finish (x :: ys) s).run eval (fun _ => true) i).reads) ∧
        ((polled child emit next leave finish (x :: xs) s).run eval flag i).stored = [] ∧
        flag ((polled child emit next leave finish (x :: xs) s).run eval flag i).reads =
          false) := by
  have hquiet : ∀ t, (poll fun search => if !search then done (leave s t)
      else publishSome (emit x s t)
        (polled child emit next leave finish xs (next x s t)) : Proc Q A O R).Quiet := by
    rintro t search rfl
    trivial
  rcases (hsilent x s).bind_run (htotal x s i) hquiet h with
    ⟨t, j, hchild, hholds, hrest⟩ | ⟨hfall, hstored, hend⟩
  · have hrun : (polled child emit next leave finish (x :: xs) s).run eval flag i =
        (if !flag j then done (leave s t) else publishSome (emit x s t)
          (polled child emit next leave finish xs (next x s t))).run eval flag (j + 1) := hrest
    cases hj : flag j with
    | true =>
      rw [hj] at hrun
      exact Or.inl ⟨t, j, hchild, hholds.succ hj, hrun⟩
    | false =>
      rw [hj] at hrun
      right
      rw [hrun]
      refine ⟨fun ys hlonger => ?_, rfl, h j hj⟩
      rw [run_polled_cons hchild rfl ys] at hlonger
      rw [hlonger j (le_of_run hchild) ((Nat.lt_succ_self j).trans_le le_reads)] at hj
      exact absurd hj (by decide)
  · exact Or.inr ⟨fun ys hlonger => hfall (hlonger.mono reads_le_bind), hstored, hend⟩

/-- The loop publishes what the undisturbed loop over its first `n` items publishes, where `n` is
the number of items it completes before the flag falls. -/
theorem polled_cut (hsilent : ∀ x s, (child x s).Silent)
    (htotal : ∀ x s i, ((child x s).run eval flag i).result ≠ none) (h : Falls flag)
    (xs : List X) (s : S) (i : Nat) :
    let loop := polled child emit next leave finish
    ∃ n ≤ xs.length,
      ((loop xs s).run eval flag i).stored =
          ((loop (xs.take n) s).run eval (fun _ => true) i).stored ∧
        (n ≠ 0 → Holds flag i ((loop (xs.take n) s).run eval (fun _ => true) i).reads) ∧
        (∀ n', n < n' → n' ≤ xs.length →
          ¬Holds flag i ((loop (xs.take n') s).run eval (fun _ => true) i).reads) ∧
        (n < xs.length → flag ((loop xs s).run eval flag i).reads = false) := by
  intro loop
  induction xs generalizing s i with
  | nil =>
    refine ⟨0, le_rfl, rfl, fun hne => absurd rfl hne, fun n' hn hle => ?_, fun hlt => ?_⟩
    · exact absurd (hn.trans_le hle) (Nat.lt_irrefl 0)
    · exact absurd hlt (Nat.lt_irrefl 0)
  | cons x xs ih =>
    rcases polled_first hsilent htotal h x xs s i with
      ⟨t, j, hchild, hholds, hrun⟩ | ⟨hlonger, hstored, hend⟩
    · obtain ⟨n, hn, hstored, hheld, hlonger, hend⟩ := ih (next x s t) (j + 1)
      have htake : ∀ ys, (loop (x :: ys) s).run eval (fun _ => true) i =
          (publishSome (emit x s t) (loop ys (next x s t))).run eval (fun _ => true) (j + 1) :=
        run_polled_cons hchild rfl
      have hrun' : (loop (x :: xs) s).run eval flag i =
          (publishSome (emit x s t) (loop xs (next x s t))).run eval flag (j + 1) := hrun
      refine ⟨n + 1, Nat.succ_le_succ hn, ?_, fun _ => ?_, fun n' hn' hle => ?_, fun hlt => ?_⟩
      · rw [List.take_succ_cons, hrun', htake, run_publishSome, run_publishSome, hstored]
      · rw [List.take_succ_cons, htake, run_publishSome]
        by_cases hzero : n = 0
        · subst hzero
          exact hholds
        · exact hholds.trans (hheld hzero)
      · obtain ⟨n'', rfl⟩ : ∃ m, n' = m + 1 := ⟨n' - 1, by omega⟩
        rw [List.take_succ_cons, htake, run_publishSome]
        have hij : i ≤ j + 1 := Nat.le_succ_of_le (le_of_run hchild)
        exact fun hheld' => hlonger n'' (by omega) (Nat.le_of_succ_le_succ hle) (hheld'.from hij)
      · rw [hrun', run_publishSome]
        exact hend (Nat.lt_of_succ_lt_succ hlt)
    · refine ⟨0, Nat.zero_le _, hstored, fun hne => absurd rfl hne, fun n' hn' _ => ?_,
        fun _ => hend⟩
      obtain ⟨n'', rfl⟩ : ∃ m, n' = m + 1 := ⟨n' - 1, by omega⟩
      rw [List.take_succ_cons]
      exact hlonger (xs.take n'')

theorem polled_reads_lt (hsilent : ∀ x s, (child x s).Silent)
    (htotal : ∀ x s i, ((child x s).run eval (fun _ => true) i).result ≠ none) {xs : List X}
    {n n' : Nat} (hlt : n < n') (hn : n < xs.length) (s : S) (i : Nat) :
    ((polled child emit next leave finish (xs.take n) s).run eval (fun _ => true) i).reads <
      ((polled child emit next leave finish (xs.take n') s).run eval (fun _ => true) i).reads := by
  induction xs generalizing n n' s i with
  | nil => exact absurd hn (Nat.not_lt_zero n)
  | cons x xs ih =>
    obtain ⟨n', rfl⟩ : ∃ m, n' = m + 1 := ⟨n' - 1, by omega⟩
    obtain ⟨t, j, hchild⟩ := (hsilent x s).run_some (htotal x s i)
    rw [List.take_succ_cons, run_polled_cons hchild rfl, run_publishSome]
    cases n with
    | zero => exact (Nat.lt_succ_of_le (le_of_run hchild)).trans_le le_reads
    | succ n =>
      rw [List.take_succ_cons, run_polled_cons hchild rfl, run_publishSome]
      exact ih (Nat.lt_of_succ_lt_succ hlt) (Nat.lt_of_succ_lt_succ hn) _ _

end Polled

end Proc
