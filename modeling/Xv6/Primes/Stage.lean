import Xv6.Primes.Code
import Xv6.Primes.Sieve
import Xv6.User.Descriptors

/-!
# One process of the chain

Process 0 is `main`, and process `k + 1` is the `sieve` that process `k` has forked. Process `k`
writes pipe `k`, which carries `stream N k`. Its blocks are checked alone, against what a system
call can do to it (`Effect`) as long as the others keep to the protocol: it closes an end of a pipe
only when the whole stream has passed, and it prints only before it forks. `Ok` also counts the
steps that a process and those it forks still have.
-/

namespace Xv6.Primes

open Lib User Function List

/-- What a process has done so far. -/
structure Local where
  fds : Table
  /-- How many numbers it has read and written. -/
  taken : Nat
  given : Nat
  /-- What it has printed. -/
  said : List UInt8
  /-- It has made its pipe, and forked. -/
  made : Bool
  forked : Bool

/-- A new process. -/
def Local.child (ℓ : Local) : Local := ⟨ℓ.fds, 0, 0, [], false, false⟩

/-- What process `k` prints. -/
def said (N : Nat) : Nat → List UInt8
  | 0 => []
  | k + 1 => (stream N k).head?.elim [] fun p => line p

/-- Process `k` gets no numbers at all. -/
def Last (N k : Nat) : Prop := ∃ i, i + 1 = k ∧ stream N i = []

/-- When process `k` may close a descriptor of the object. -/
def Closes (N k : Nat) (ℓ : Local) : Obj → Prop
  | .readEnd i => i + 1 = k → ℓ.taken = (stream N i).length
  | .writeEnd i => i = k → ℓ.given = (stream N k).length
  | _ => True

/-- Before a system call of process `k`, with `n` steps left. -/
def Pre (N k : Nat) (ℓ : Local) (n : Nat) : Sys → Prop
  | .fork => ℓ.made = true ∧ ℓ.forked = false ∧ Holds ℓ.fds (.readEnd k) ∧
      ℓ.said = said N k ∧ ¬Last N k
  | .exit _ => (∀ o, Holds ℓ.fds o → o = .console) ∧ (ℓ.forked = true ∨ Last N k) ∧ opened ℓ.fds < n
  | .wait => ¬Holds ℓ.fds (.writeEnd k)
  | .pipe => ℓ.made = false ∧ ∃ fd₀ fd₁, fdalloc ℓ.fds = some fd₀ ∧
    fdalloc (update ℓ.fds fd₀ (some (.readEnd k))) = some fd₁
  | .close fd => ∀ o, ℓ.fds.get fd = some o → Closes N k ℓ o
  | .read fd n => n = 4 ∧ ∃ i, i + 1 = k ∧ ℓ.fds.get fd = some (.readEnd i)
  | .write fd bs => (ℓ.fds.get fd = some (.writeEnd k) ∧ ℓ.forked = true ∧
      ∃ n : Nat, (stream N k)[ℓ.given]? = some n ∧ bs = toBytes n) ∨
    ℓ.fds.get fd = some .console ∧ ℓ.forked = false ∧ ℓ.said ++ bs <+: said N k
  | _ => False

/-- What a system call can do: its result, and what has been done then. -/
inductive Effect (N k : Nat) : (o : Sys) → Local → iface.Res o → Local → Prop
  | fork {ℓ} {r : Int} (ne : r ≠ 0) : Effect N k Sys.fork ℓ r { ℓ with forked := true }
  | wait {ℓ} (r : Int) : Effect N k Sys.wait ℓ r ℓ
  | pipe {ℓ fd₀ fd₁} (read : fdalloc ℓ.fds = some fd₀)
    (write : fdalloc (update ℓ.fds fd₀ (some (.readEnd k))) = some fd₁) :
    Effect N k Sys.pipe ℓ (some (fd₀, fd₁) : Option (Nat × Nat))
    { ℓ with fds := ℓ.fds.addPipe k fd₀ fd₁, made := true }
  | close {ℓ fd} {o : Obj} (isOpen : ℓ.fds.get fd = some o) :
    Effect N k (Sys.close fd) ℓ (0 : Int) { ℓ with fds := update ℓ.fds fd none }
  | closeFail {ℓ fd} (closed : ℓ.fds.get fd = none) : Effect N k (Sys.close fd) ℓ (-1 : Int) ℓ
  | take {ℓ fd i} {n : Nat} (left : i + 1 = k) (number : (stream N i)[ℓ.taken]? = some n) :
    Effect N k (Sys.read fd 4) ℓ (some (toBytes n) : Option (List UInt8))
    { ℓ with taken := ℓ.taken + 1 }
  | eof {ℓ fd i} (left : i + 1 = k) (all : ℓ.taken = (stream N i).length) :
    Effect N k (Sys.read fd 4) ℓ (some [] : Option (List UInt8)) ℓ
  | give {ℓ fd bs} (isOpen : ℓ.fds.get fd = some (.writeEnd k)) (r : Int) :
    Effect N k (Sys.write fd bs) ℓ r { ℓ with given := ℓ.given + 1 }
  | say {ℓ fd bs} (isOpen : ℓ.fds.get fd = some .console) (r : Int) :
    Effect N k (Sys.write fd bs) ℓ r { ℓ with said := ℓ.said ++ bs }

/-- The result of a system call in a new process. -/
inductive Forks : (o : Sys) → iface.Res o → Prop
  | fork : Forks Sys.fork (0 : Int)

/-- The write end of the pipe it reads is inherited, and what a process does first is to close it.
-/
def Drops (k : Nat) (ℓ : Local) (o : Sys) : Prop :=
  ∀ i, i + 1 = k → Holds ℓ.fds (.writeEnd i) → ∃ fd, o = .close fd ∧
    ℓ.fds.get fd = some (.writeEnd i)

/-- How many steps the `sieve` that gets these numbers takes, with those behind it. -/
def cost : List Nat → Nat
  | [] => 7
  | p :: ns => 17 + (line p).length + 3 * ns.length + cost (next (p :: ns))
  termination_by ns => ns.length
  decreasing_by exact Nat.lt_succ_of_le (length_filter_le ..)

/-- Before a block, with `n` steps left. -/
def Entry (N k : Nat) (ℓ : Local) (n : Nat) : Label → Prop
  | .feed w i => k = 0 ∧ Opens ℓ.fds [(w, .writeEnd 0)] ∧ 2 ≤ i ∧ i ≤ N + 1 ∧ ℓ.given = i - 2 ∧
      ℓ.forked = true ∧
    2 * (N + 1 - i) + 6 ≤ n
  | .sieve left => ∃ i, i + 1 = k ∧ Opens ℓ.fds [(left.1, .readEnd i)] ∧
      left.1 ≠ left.2 ∧ 3 ≤ left.2 ∧
    ℓ = ⟨ℓ.fds, 0, 0, [], false, false⟩ ∧ cost (stream N i) ≤ n
  | .filter left right prime => ∃ i p ns, i + 1 = k ∧ stream N i = p :: ns ∧ prime = (p : Int) ∧
    Opens ℓ.fds [(left, .readEnd i), (right, .writeEnd k)] ∧ left ≠ right ∧ 1 ≤ ℓ.taken ∧
    ℓ.taken ≤ ns.length + 1 ∧
    ℓ.given = ((ns.take (ℓ.taken - 1)).filter fun n => ¬p ∣ n).length ∧ ℓ.forked = true ∧
    3 * (ns.length + 1 - ℓ.taken) + 8 ≤ n

/-- The rest of a block of process `k`, with `n` steps left. -/
def Ok (N : Nat) : (k : Nat) → (c : Code Label) → (ℓ : Local) → (n : Nat) → Prop
  | k, .ret l, ℓ, n => (∀ i, i + 1 = k → ¬Holds ℓ.fds (.writeEnd i)) ∧ 0 < n ∧ Entry N k ℓ (n - 1) l
  | k, .call o c, ℓ, n => Pre N k ℓ n o ∧ Drops k ℓ o ∧ ∃ n₁ n₂, n₁ + n₂ < n ∧
    (∀ r ℓ', Effect N k o ℓ r ℓ' → Ok N k (c r) ℓ' n₁) ∧ ∀ r, Forks o r → Ok N (k + 1)
    (c r) ℓ.child n₂

section

variable {N k n : Nat} {ℓ : Local}

variable {o : Sys}

theorem ok_call {c : iface.Res o → Code Label} (hpre : Pre N k ℓ n o)
    (hdrops : Drops k ℓ o) (hn : 0 < n)
    (h : ∀ r ℓ', Effect N k o ℓ r ℓ' → Ok N k (c r) ℓ' (n - 1))
    (hfork : ∀ r, ¬Forks o r := by rintro _ ⟨⟩) :
    Ok N k (.call o c) ℓ n :=
  ⟨hpre, hdrops, n - 1, 0, by omega, h, fun r hr => absurd hr (hfork r)⟩

variable {es : List (Nat × Obj)}

theorem drops_of_opens (h : Opens ℓ.fds es)
    (hes : ∀ i fd, i + 1 = k → (fd, .writeEnd i) ∉ es) : Drops k ℓ o := by
  intro i hi hholds
  exact absurd hholds (h.not_holds fun fd => hes i fd hi)

theorem ok_exit {status : Int} (hopens : Opens ℓ.fds []) (hdone : ℓ.forked = true ∨ Last N k)
    (hn : 4 ≤ n) :
    Ok N k (exit status) ℓ n := by
  have hthree : opened ℓ.fds = 3 := by
    rw [hopens.eq_consoleTable]
    decide
  refine ok_call ⟨fun o ho => ?_, hdone, by omega⟩ (drops_of_opens hopens nofun) (by omega)
    fun r => r.elim
  exact (hopens.holds ho).resolve_right nofun

variable {f : Int → Code Label}

theorem ok_wait (hopens : Opens ℓ.fds es)
    (hes : ∀ i fd, (fd, .writeEnd i) ∉ es) (hn : 0 < n) (h : ∀ r, Ok N k (f r) ℓ (n - 1)) :
    Ok N k (wait >>= f) ℓ n := by
  refine ok_call (hopens.not_holds (hes k)) (drops_of_opens hopens fun i fd _ => hes i fd) hn
    fun r ℓ' he => ?_
  cases he with
  | wait r => exact h r

variable {fd : Nat}

theorem ok_close {o : Obj}
    (hopens : Opens ℓ.fds ((fd, o) :: es)) (hfree : fd ∉ es.map Prod.fst) (hcloses : Closes N k ℓ o)
    (hes : ∀ i fd, i + 1 = k → (fd, .writeEnd i) ∉ es) (hn : 0 < n)
    (h : ∀ r t, Opens t es → Ok N k (f r) { ℓ with fds := t } (n - 1)) :
    Ok N k (close fd >>= f) ℓ n := by
  have hget := hopens.get mem_cons_self
  refine ok_call (fun o' ho' => ?_) (fun i hi hholds => ?_) hn fun r ℓ' he => ?_
  · rw [hget] at ho'
    cases ho'
    exact hcloses
  · obtain hc | ⟨fd', hfd'⟩ := hopens.holds hholds
    · cases hc
    · rcases mem_cons.mp hfd' with heq | hmem
      · cases heq
        exact ⟨fd, rfl, hget⟩
      · exact absurd hmem (hes i fd' hi)
  · cases he with
    | close => exact h _ _ (hopens.close hfree)
    | closeFail hclosed => rw [hget] at hclosed; cases hclosed

theorem ok_puts {bs : List UInt8} {f : Unit → Code Label} (hopens : Opens ℓ.fds es)
    (hes : ∀ i fd, i + 1 = k → (fd, .writeEnd i) ∉ es) (hforked : ℓ.forked = false)
    (hsaid : ℓ.said ++ bs = said N k)
    (hn : bs.length < n) (h : Ok N k (f ()) { ℓ with said := said N k } (n - bs.length)) :
    Ok N k (puts 1 bs >>= f) ℓ n := by
  induction bs generalizing ℓ n with
  | nil =>
    rw [append_nil] at hsaid
    rw [← hsaid] at h
    exact h
  | cons b bs ih =>
    have hprefix : ℓ.said ++ [b] ++ bs = said N k := by rw [append_assoc]; exact hsaid
    rw [length_cons] at hn
    refine ok_call (.inr ⟨hopens.stdout, hforked, bs, hprefix⟩) (drops_of_opens hopens hes)
      (by omega) fun r ℓ' he => ?_
    cases he with
    | give hopen => rw [hopens.stdout] at hopen; cases hopen
    | say _ r =>
      refine ih hopens hforked hprefix (by omega) ?_
      rwa [length_cons, Nat.add_comm, ← Nat.sub_sub] at h

/-- Reading the next number, or the end of the file. -/
theorem ok_read {i : Nat} {f : Option (List UInt8) → Code Label} (hleft : i + 1 = k)
    (hopens : Opens ℓ.fds es) (hfd : (fd, .readEnd i) ∈ es)
    (hes : ∀ i fd, i + 1 = k → (fd, .writeEnd i) ∉ es) (hn : 0 < n)
    (htake : ∀ m : Nat, (stream N i)[ℓ.taken]? = some m →
      Ok N k (f (some (toBytes m))) { ℓ with taken := ℓ.taken + 1 } (n - 1))
    (heof : ℓ.taken = (stream N i).length → Ok N k (f (some [])) ℓ (n - 1)) :
    Ok N k (read fd 4 >>= f) ℓ n := by
  refine ok_call ⟨rfl, i, hleft, hopens.get hfd⟩ (drops_of_opens hopens hes) hn fun r ℓ' he => ?_
  cases he with
  | take hi hm =>
    cases Nat.succ.inj (hi.trans hleft.symm)
    exact htake _ hm
  | eof hi hall =>
    cases Nat.succ.inj (hi.trans hleft.symm)
    exact heof hall

theorem ok_write {m : Nat} (hopens : Opens ℓ.fds es)
    (hfd : (fd, .writeEnd k) ∈ es) (hes : ∀ i fd, i + 1 = k → (fd, .writeEnd i) ∉ es)
    (hforked : ℓ.forked = true) (hm : (stream N k)[ℓ.given]? = some m) (hn : 0 < n)
    (h : ∀ r, Ok N k (f r) { ℓ with given := ℓ.given + 1 } (n - 1)) :
    Ok N k (write fd (toBytes m) >>= f) ℓ n := by
  refine ok_call (.inl ⟨hopens.get hfd, hforked, m, hm, rfl⟩) (drops_of_opens hopens hes) hn
    fun r ℓ' he => ?_
  cases he with
  | give _ r => exact h r
  | say hopen => rw [hopens.get hfd] at hopen; cases hopen

theorem ok_pipe {f : Option (Nat × Nat) → Code Label} (hopens : Opens ℓ.fds es)
    (hes : ∀ i fd, i + 1 = k → (fd, .writeEnd i) ∉ es) (hlen : es.length ≤ 1)
    (hmade : ℓ.made = false) (hn : 0 < n)
    (h : ∀ fd₀ fd₁ t, Opens t ((fd₁, .writeEnd k) :: (fd₀, .readEnd k) :: es) →
      3 ≤ fd₁ → fd₁ ≠ fd₀ →
      fd₀ ∉ es.map Prod.fst → fd₁ ∉ es.map Prod.fst →
      Ok N k (f (some (fd₀, fd₁))) { ℓ with fds := t, made := true }
      (n - 1)) : Ok N k (pipe >>= f) ℓ n := by
  obtain ⟨fd₀, hfd₀⟩ := hopens.room (by simp only [NOFILE]; omega)
  have hopens₀ := hopens.alloc (o := .readEnd k) hfd₀
  obtain ⟨fd₁, hfd₁⟩ := hopens₀.1.room (by simp only [NOFILE, length_cons]; omega)
  refine ok_call ⟨hmade, fd₀, fd₁, hfd₀, hfd₁⟩ (drops_of_opens hopens hes) hn fun r ℓ' he => ?_
  cases he with
  | pipe hread hwrite =>
    obtain ⟨hopens₀, -, hnew₀⟩ := hopens.alloc (o := .readEnd k) hread
    obtain ⟨hopens₁, hthree, hnew₁⟩ := hopens₀.alloc (o := .writeEnd k) hwrite
    rw [map_cons, mem_cons, not_or] at hnew₁
    exact h _ _ _ hopens₁ hthree hnew₁.1 hnew₀ hnew₁.2

theorem ok_fork {c c' : Code Label} {n₁ n₂ : Nat} (hopens : Opens ℓ.fds es)
    (hes : ∀ i fd, i + 1 = k → (fd, .writeEnd i) ∉ es) (hfd : (fd, .readEnd k) ∈ es)
    (hmade : ℓ.made = true)
    (hforked : ℓ.forked = false) (hsaid : ℓ.said = said N k) (hlast : ¬Last N k) (hn : n₁ + n₂ < n)
    (hchild : Ok N (k + 1) c ℓ.child n₂) (hparent : Ok N k c' { ℓ with forked := true } n₁) :
    Ok N k (fork >>= fun pid => if pid = 0 then c else c') ℓ n := by
  refine ⟨⟨hmade, hforked, hopens.holds_of_mem hfd, hsaid, hlast⟩,
    drops_of_opens hopens hes, n₁, n₂, hn, fun r ℓ' he => ?_, fun r hr => ?_⟩
  · cases he with
    | fork hne =>
      rw [← if_neg (c := _ = (0 : Int)) hne (t := c) (e := c')] at hparent
      exact hparent
  · cases hr with
    | fork => exact hchild

end

/-! ## The blocks -/

section

variable {N k n : Nat} {ℓ : Local}

variable {i : Nat}

theorem stream_zero (htwo : 2 ≤ i) (hle : i ≤ N) : (stream N 0)[i - 2]? = some i := by
  rw [stream, getElem?_range' (by omega)]
  congr 1
  omega

theorem feed_ok {w : Nat} (h : Entry N k ℓ n (.feed w i)) : Ok N k (feed N w i) ℓ n := by
  obtain ⟨rfl, hopens, htwo, hle, hgiven, hforked, hn⟩ := h
  rw [feed]
  split
  next hmore =>
    refine ok_write hopens mem_cons_self (by simp) hforked (m := i) ?_ (by omega) fun r => ?_
    · rw [hgiven]
      exact stream_zero htwo hmore
    · exact ⟨by simp, by omega, rfl, hopens, by omega, by omega, by simp only [hgiven]; omega,
        hforked, by omega⟩
  next hend =>
    have hall : ℓ.given = (stream N 0).length := by
      rw [stream, length_range']
      omega
    refine ok_close hopens (not_mem_nil) (fun _ => hall) (by simp) (by omega) fun r t ht => ?_
    refine ok_wait ht (by simp) (by omega) fun r => ?_
    exact ok_exit ht (.inl hforked) (by omega)

variable {p : Nat} {ns : List Nat}

theorem said_succ (h : stream N i = p :: ns) : said N (i + 1) = line p := by
  rw [said, h]
  rfl

theorem not_last (h : stream N i = p :: ns) : ¬Last N (i + 1) := by
  intro ⟨j, hj, hnil⟩
  cases Nat.succ.inj hj
  rw [h] at hnil
  cases hnil

variable {left fd₀ fd₁ : Nat}

/-- What the new process does after the `fork` in `sieve`. -/
theorem sieve_child {t : Table} (hstream : stream N i = p :: ns)
    (hopens : Opens t [(fd₁, .writeEnd (i + 1)), (fd₀, .readEnd (i + 1)), (left, .readEnd i)])
    (hthree : 3 ≤ fd₁)
    (hne : fd₁ ≠ fd₀) (hne₀ : fd₀ ≠ left) (hne₁ : fd₁ ≠ left) (hn : cost (next (p :: ns)) + 3 ≤ n) :
    Ok N (i + 2) (do let _ ← close fd₁; let _ ← close left; pure (.sieve (fd₀, fd₁))) ⟨t, 0, 0, [],
      false, false⟩ n := by
  refine ok_close hopens (by simp [hne, hne₁]) (fun heq => by omega) (by simp) (by omega)
    fun r t ht => ?_
  have ht : Opens t [(left, .readEnd i), (fd₀, .readEnd (i + 1))] := ht.congr fun e => by
    simp [or_comm]
  refine ok_close ht (by simp [hne₀.symm]) (fun heq => by omega) (by simp) (by omega)
    fun r t ht => ?_
  refine ⟨fun j hj => ht.not_holds (by simp), by omega, i + 1, rfl, ht, hne.symm, hthree, rfl, ?_⟩
  rw [stream, hstream]
  omega

/-- What the process does after the `fork` in `sieve`. -/
theorem sieve_parent (hstream : stream N i = p :: ns)
    (hopens : Opens ℓ.fds [(fd₁, .writeEnd (i + 1)), (fd₀, .readEnd (i + 1)), (left, .readEnd i)])
    (hne : fd₁ ≠ fd₀)
    (hne₀ : fd₀ ≠ left) (hne₁ : fd₁ ≠ left) (htaken : ℓ.taken = 1) (hgiven : ℓ.given = 0)
    (hforked : ℓ.forked = true) (hn : 3 * ns.length + 10 ≤ n) :
    Ok N (i + 1) (do let _ ← close fd₀; pure (.filter left fd₁ (p : Int))) ℓ n := by
  have hopens : Opens ℓ.fds [(fd₀, .readEnd (i + 1)), (fd₁, .writeEnd (i + 1)),
      (left, .readEnd i)] :=
    hopens.congr fun e => by simp only [mem_cons]; tauto
  have hes : ∀ j fd, j + 1 = i + 1 →
      (fd, Obj.writeEnd j) ∉ [(fd₁, Obj.writeEnd (i + 1)), (left, .readEnd i)] := by
    intro j fd hj
    have hne : j ≠ i + 1 := by omega
    simp [hne]
  refine ok_close hopens (by simp [hne.symm, hne₀]) (fun heq => by omega) hes (by omega)
    fun r t ht => ?_
  have hown : ∀ j, j + 1 = i + 1 → ¬Holds t (.writeEnd j) :=
    fun j hj => ht.not_holds fun fd => hes j fd hj
  have ht : Opens t [(left, .readEnd i), (fd₁, .writeEnd (i + 1))] := ht.congr fun e => by
    simp [or_comm]
  refine ⟨hown,
    by omega, i, p, ns, rfl, hstream, rfl, ht, hne₁.symm, htaken.ge, ?_, ?_, hforked, ?_⟩
  · simp only [htaken]
    omega
  · simp [htaken, hgiven]
  · simp only [htaken]
    omega

theorem sieve_ok {left : Nat × Nat} (hN : N < 2 ^ 31) (h : Entry N k ℓ n (.sieve left)) :
    Ok N k (sieve left) ℓ n := by
  obtain ⟨i, rfl, hopens, hne, hthree, hℓ, hn⟩ := h
  obtain ⟨t, _, _, _, _, _⟩ := ℓ
  cases hℓ
  have hes : ∀ j fd, j + 1 = i + 1 → (fd, Obj.writeEnd j) ∉ [(left.1, Obj.readEnd i)] := by simp
  have hcost : 7 ≤ n := by
    cases hs : stream N i with
    | nil => rw [hs, cost] at hn; exact hn
    | cons p ns => rw [hs, cost] at hn; omega
  -- the write end is already closed
  have hclosed := hopens.closed hthree (by simpa using hne.symm)
  refine ok_call (fun o ho => ?_) (drops_of_opens hopens hes) (by omega) fun r ℓ' he => ?_
  · rw [hclosed] at ho
    cases ho
  cases he with
  | close hopen => rw [hclosed] at hopen; cases hopen
  | closeFail =>
  refine ok_read rfl hopens mem_cons_self hes (by omega) (fun p hp => ?_) fun hall => ?_
  · have hlt : p < 2 ^ 31 := (mem_stream (mem_of_getElem? hp)).2.trans_lt hN
    obtain ⟨ns, hstream⟩ : ∃ ns, stream N i = p :: ns := by
      cases hs : stream N i with
      | nil => rw [hs] at hp; cases hp
      | cons q ns => rw [hs] at hp; cases hp; exact ⟨ns, rfl⟩
    rw [hstream, cost] at hn
    simp only [Option.getD_some, length_toBytes, ne_eq, not_true_eq_false, if_false,
      ofBytes_toBytes hlt]
    refine ok_puts hopens hes rfl (said_succ hstream).symm (by omega) ?_
    refine ok_pipe hopens hes (by simp) rfl (by omega) fun fd₀ fd₁ t ht hthree hne hnew₀ hnew₁ => ?_
    have hnew₀ : fd₀ ≠ left.1 := by simpa using hnew₀
    have hnew₁ : fd₁ ≠ left.1 := by simpa using hnew₁
    have hchild := sieve_child hstream ht hthree hne hnew₀ hnew₁ (Nat.le_refl _)
    have hparent :=
      sieve_parent (ℓ := ⟨t, 1, 0, said N (i + 1), true, true⟩) hstream ht hne hnew₀
        hnew₁ rfl rfl rfl
      (Nat.le_refl _)
    exact ok_fork ht (by simp) (mem_cons_of_mem _ mem_cons_self) rfl rfl rfl
      (not_last hstream) (by omega)
      hchild hparent
  · have hnil : stream N i = [] := length_eq_zero_iff.mp hall.symm
    refine ok_close hopens not_mem_nil (fun _ => hall) nofun (by omega) fun r t ht => ?_
    exact ok_exit ht (.inr ⟨i, rfl, hnil⟩) (by omega)

/-- The number at position `j`, if it is let through, has the position it should have in what is let
through. -/
theorem getElem?_filter_take {q : Nat → Bool} {j m : Nat} (hm : ns[j]? = some m) (hq : q m = true) :
    (ns.filter q)[((ns.take j).filter q).length]? = some m := by
  obtain ⟨hj, rfl⟩ := List.getElem?_eq_some_iff.mp hm
  have hsplit : ns.filter q = (ns.take j).filter q ++ ns[j] :: (ns.drop (j + 1)).filter q := by
    rw [← List.filter_cons_of_pos hq, ← List.filter_append, List.cons_getElem_drop_succ,
      List.take_append_drop]
  rw [hsplit, List.getElem?_append_right (Nat.le_refl _), Nat.sub_self]
  rfl

theorem filter_ok {right : Nat} {prime : Int} (hN : N < 2 ^ 31)
    (h : Entry N k ℓ n (.filter left right prime)) :
    Ok N k (filter left right prime) ℓ n := by
  obtain ⟨i, p, ns, rfl, hstream, rfl, hopens, hne, hone, hle, hgiven, hforked, hn⟩ := h
  have hes : ∀ j fd, j + 1 = i + 1 →
      (fd, Obj.writeEnd j) ∉ [(left, .readEnd i), (right, Obj.writeEnd (i + 1))] := by
    intro j fd hj
    have hne : j ≠ i + 1 := by omega
    simp [hne]
  have hown : ∀ j, j + 1 = i + 1 → ¬Holds ℓ.fds (.writeEnd j) :=
    fun j hj => hopens.not_holds fun fd => hes j fd hj
  have hnext : stream N (i + 1) = ns.filter fun n => ¬p ∣ n := by rw [stream, hstream, next]
  refine ok_read rfl hopens mem_cons_self hes (by omega) (fun m hm => ?_) fun hall => ?_
  · have hlt : m < 2 ^ 31 := (mem_stream (mem_of_getElem? hm)).2.trans_lt hN
    have htaken : ℓ.taken = ℓ.taken - 1 + 1 := by omega
    rw [hstream, htaken, List.getElem?_cons_succ] at hm
    obtain ⟨hless, hget⟩ := List.getElem?_eq_some_iff.mp hm
    have htake : ns.take ℓ.taken = ns.take (ℓ.taken - 1) ++ [m] := by
      rw [htaken, List.take_succ_eq_append_getElem hless, hget, Nat.add_sub_cancel]
    have hmod : (m : Int).tmod p ≠ 0 ↔ ¬p ∣ m := by
      rw [← Int.ofNat_tmod, Nat.dvd_iff_mod_eq_zero]
      exact not_congr Int.natCast_eq_zero
    simp only [Option.getD_some, length_toBytes, if_true, ofBytes_toBytes hlt]
    split
    next hpass =>
      have hp := hmod.mp hpass
      refine ok_write hopens (by simp) hes hforked ?_ (by omega) fun r => ?_
      · rw [hnext, hgiven]
        exact getElem?_filter_take hm (decide_eq_true hp)
      · refine ⟨hown, by omega, i, p, ns, rfl, hstream, rfl, hopens, hne, Nat.le_add_left ..,
          by simp only; omega, ?_, hforked, ?_⟩
        · simp [htake, hgiven, hp]
        · simp only
          omega
    next hdrop =>
      have hp : p ∣ m := not_not.mp (mt hmod.mpr hdrop)
      refine ⟨hown, by omega, i, p, ns, rfl, hstream, rfl, hopens, hne, Nat.le_add_left ..,
        by simp only; omega, ?_, hforked, ?_⟩
      · simp [htake, hgiven, hp]
      · simp only
        omega
  · have hgive : ℓ.given = (stream N (i + 1)).length := by
      rw [hstream, length_cons] at hall
      rw [hnext, hgiven, hall, Nat.add_sub_cancel, take_length]
    refine ok_close hopens (by simpa using hne) (fun _ => hall) (fun j fd hj hmem => ?_) (by omega)
      fun r t ht => ?_
    · exact hes j fd hj (mem_cons_of_mem _ hmem)
    refine ok_close ht not_mem_nil (fun _ => hgive) (by simp) (by omega) fun r t ht => ?_
    refine ok_wait ht (by simp) (by omega) fun r => ?_
    exact ok_exit ht (.inl hforked) (by omega)

theorem prog_ok {l : Label} (hN : N < 2 ^ 31) (h : Entry N k ℓ n l) : Ok N k (prog N l) ℓ n := by
  cases l with
  | feed w i => exact feed_ok h
  | sieve left => exact sieve_ok hN h
  | filter left right prime => exact filter_ok hN h

theorem main_ok (hN : 2 ≤ N) :
    Ok N 0 main ⟨consoleTable, 0, 0, [], false, false⟩ (2 * N + cost (stream N 0) + 20) := by
  refine ok_pipe opens_consoleTable nofun
    (Nat.zero_le _) rfl (by omega) fun fd₀ fd₁ t ht hthree hne _ _ => ?_
  have hchild : Ok N 1 (do let _ ← close fd₁; pure (.sieve (fd₀, fd₁))) ⟨t, 0, 0, [], false, false⟩
      (cost (stream N 0) + 3) := by
    refine ok_close ht (by simpa using hne) (fun heq => by omega) (by simp) (by omega)
      fun r t ht => ?_
    exact ⟨fun j hj => ht.not_holds (by simp),
      by omega, 0, rfl, ht, hne.symm, hthree, rfl, by omega⟩
  have hparent : Ok N 0 (do let _ ← close fd₀; pure (.feed fd₁ 2)) ⟨t, 0, 0, [], true, true⟩
      (2 * N + 12) := by
    have ht : Opens t [(fd₀, .readEnd 0), (fd₁, .writeEnd 0)] := ht.congr fun e => by simp [or_comm]
    refine ok_close ht (by simpa using hne.symm) (fun heq => by omega) nofun
      (by omega) fun r t ht => ?_
    exact ⟨nofun, by omega, rfl, ht, Nat.le_refl _, by omega, rfl, rfl, by omega⟩
  exact ok_fork ht nofun
    (mem_cons_of_mem _ mem_cons_self) rfl rfl rfl nofun (by omega) hchild hparent

end

end Xv6.Primes
