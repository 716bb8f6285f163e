import ReconOS.Cookies.Jar

/-! The header a request carries: which cookies, in which order, and how much of them. -/
namespace ReconOS.Cookies

open Libc Lib

/-! ## The order -/

theorem insertFromEnd_perm (c : Cookie) (sorted : List Cookie) :
    (insertFromEnd c sorted).Perm (c :: sorted) := by
  induction sorted with
  | nil => exact List.Perm.refl _
  | cons d rest ih =>
    unfold insertFromEnd
    split
    · exact (ih.cons d).trans (List.Perm.swap c d rest)
    · exact List.Perm.refl _

theorem sortLoop_perm (sorted cs : List Cookie) : (sortLoop sorted cs).Perm (sorted ++ cs) := by
  induction cs generalizing sorted with
  | nil => simp [sortLoop]
  | cons c cs ih =>
    refine (ih (insertFromEnd c sorted)).trans ?_
    refine ((insertFromEnd_perm c sorted).append_right cs).trans ?_
    exact List.perm_middle.symm

/-- Not after: a longer path, or one as long and no later an arrival. -/
def Before (a b : Cookie) : Prop :=
  b.path.length < a.path.length ∨ a.path.length = b.path.length ∧ a.serial ≤ b.serial

theorem Before.trans {a b c : Cookie} (ab : Before a b) (bc : Before b c) : Before a c := by
  unfold Before at *
  omega

theorem before_of_moreSpecific {a b : Cookie} (is : moreSpecific a b = true) : Before a b := by
  unfold moreSpecific at is
  split at is
  · simp only [gt_iff_lt, decide_eq_true_eq] at is
    exact .inl is
  · rename_i same
    simp only [decide_eq_true_eq] at is
    exact .inr ⟨by omega, Nat.le_of_lt is⟩

theorem before_of_not_moreSpecific {a b : Cookie} (is : moreSpecific a b = false) :
    Before b a := by
  unfold moreSpecific at is
  split at is
  · simp only [gt_iff_lt, decide_eq_false_iff_not] at is
    exact .inl (by omega)
  · rename_i same
    simp only [decide_eq_false_iff_not] at is
    exact .inr ⟨by omega, by omega⟩

/-- Last first. -/
theorem insertFromEnd_sorted (c : Cookie) {sorted : List Cookie}
    (ok : sorted.Pairwise fun a b => Before b a) :
    (insertFromEnd c sorted).Pairwise fun a b => Before b a := by
  induction sorted with
  | nil => exact List.pairwise_singleton _ _
  | cons d rest ih =>
    obtain ⟨first, later⟩ := List.pairwise_cons.mp ok
    unfold insertFromEnd
    split
    case isTrue is =>
      refine List.pairwise_cons.mpr ⟨fun e inside => ?_, ih later⟩
      cases List.mem_cons.mp ((insertFromEnd_perm c rest).mem_iff.mp inside) with
      | inl new => exact new ▸ before_of_moreSpecific is
      | inr old => exact first e old
    case isFalse is =>
      have dc : Before d c := before_of_not_moreSpecific (by simpa using is)
      refine List.pairwise_cons.mpr ⟨fun e inside => ?_, ok⟩
      cases List.mem_cons.mp inside with
      | inl same => exact same ▸ dc
      | inr old => exact (first e old).trans dc

theorem sortLoop_sorted {sorted : List Cookie} (ok : sorted.Pairwise fun a b => Before b a)
    (cs : List Cookie) : (sortLoop sorted cs).Pairwise Before := by
  induction cs generalizing sorted with
  | nil =>
    rw [sortLoop, List.pairwise_reverse]
    exact ok
  | cons c cs ih => exact ih (insertFromEnd_sorted c ok)

theorem order_sorted (j : Jar) (host path : Text) (secure : Bool) :
    (order j host path secure).Pairwise Before :=
  sortLoop_sorted List.Pairwise.nil _

theorem mem_order {j : Jar} {host path : Text} {secure : Bool} {c : Cookie} :
    c ∈ order j host path secure ↔ c ∈ j.kept ∧ reaches host (wantPath path) secure c = true := by
  rw [order, (sortLoop_perm _ _).mem_iff, List.nil_append, List.mem_filter]

/-! ## The text -/

theorem pairText_ne_nil (c : Cookie) : pairText c ≠ [] := by simp [pairText]

/-- The pairs one after another. -/
def joined (cs : List Cookie) : Text := separator.intercalate (cs.map pairText)

theorem joined_concat {cs : List Cookie} (some : cs ≠ []) (c : Cookie) :
    joined (cs ++ [c]) = joined cs ++ (separator ++ pairText c) := by
  induction cs with
  | nil => exact absurd rfl some
  | cons d cs ih =>
    cases cs with
    | nil => simp [joined]
    | cons e cs =>
      have rest := ih (List.cons_ne_nil _ _)
      unfold joined at rest ⊢
      simp only [List.cons_append, List.map_cons, List.intercalate_cons_cons] at rest ⊢
      rw [rest]
      simp

theorem joined_eq_nil_iff (cs : List Cookie) : joined cs = [] ↔ cs = [] := by
  cases cs with
  | nil => simp [joined]
  | cons c cs =>
    have some := pairText_ne_nil c
    cases cs with
    | nil => simpa [joined] using some
    | cons d cs => simp [joined, List.intercalate_cons_cons, some]

/-- The pairs that are already there, and one more. -/
theorem joined_more (sent : List Cookie) (c : Cookie) :
    joined sent ++ ((if (joined sent).isEmpty then [] else separator) ++ pairText c) =
      joined (sent ++ [c]) := by
  cases sent with
  | nil => simp [joined]
  | cons d sent =>
    have some : (joined (d :: sent)).isEmpty = false := by
      rw [List.isEmpty_eq_false_iff]
      exact fun none => List.cons_ne_nil _ _ ((joined_eq_nil_iff _).mp none)
    rw [some, if_neg Bool.false_ne_true, joined_concat (List.cons_ne_nil _ _)]

theorem joined_length_le (sent more : List Cookie) :
    (joined sent).length ≤ (joined (sent ++ more)).length := by
  induction more generalizing sent with
  | nil => simp
  | cons c more ih =>
    have later := ih (sent ++ [c])
    have first : (joined sent).length ≤ (joined (sent ++ [c])).length := by
      rw [← joined_more, List.length_append]
      omega
    rw [List.append_assoc, List.singleton_append] at later
    omega

/-- **The header is whole pairs**, the first of them in order, and all of them where there is
room. -/
theorem headerLoop_joined (size : Nat) (sent cs : List Cookie) :
    ∃ more, more <+: cs ∧ headerLoop size (joined sent) cs = joined (sent ++ more) ∧
      ((joined (sent ++ cs)).length < size → more = cs) := by
  induction cs generalizing sent with
  | nil => exact ⟨[], List.nil_prefix, by simp [headerLoop], fun _ => rfl⟩
  | cons c cs ih =>
    have one := joined_more sent c
    unfold headerLoop
    dsimp only
    generalize (if (joined sent).isEmpty then [] else separator) ++ pairText c = pair at one ⊢
    by_cases full : (joined sent).length + pair.length + 1 > size
    · rw [if_pos full]
      refine ⟨[], List.nil_prefix, by simp, fun room => ?_⟩
      exfalso
      have longer := joined_length_le (sent ++ [c]) cs
      rw [← one, List.length_append, List.append_assoc, List.singleton_append] at longer
      omega
    · rw [if_neg full]
      obtain ⟨more, front, text, all⟩ := ih (sent ++ [c])
      refine ⟨c :: more, ?_, ?_, fun room => ?_⟩
      · exact (List.prefix_cons_inj c).mpr front
      · rw [one, text]
        simp
      · rw [all (by simpa using room)]

/-! What the unencrypted side of a site can do to a cookie of the encrypted side. -/

/-- A `Set-Cookie` that came over a connection that is not encrypted. -/
structure Clear where
  host : Text
  path : Text
  setCookie : Text
  now : Int
  deriving DecidableEq

def clearStep (j : Jar) (m : Clear) : Jar := (set j m.host m.path false m.setCookie m.now).1

/-- The cookie the jar already has for what is set, which is the one written to or dropped. -/
def Hit (j : Jar) (host : Text) (s : Setting) (c : Cookie) : Prop :=
  ∃ i, find j host s.path s.name = some i ∧ j.kept[i]? = some c

/-- The one that goes to make room: nothing is there to replace, the host has its fill, and this
is the one over soonest. -/
def Pushed (j : Jar) (host : Text) (s : Setting) (now : Int) (c : Cookie) : Prop :=
  find j host s.path s.name = none ∧ ¬(s.expires ≠ 0 ∧ s.expires ≤ now) ∧
    here j host ≥ perHost ∧ ∃ i, soonest j host = some i ∧ j.kept[i]? = some c

/-- The call leaves this cookie alone. -/
def Spares (c : Cookie) (j : Jar) (m : Clear) : Prop :=
  m.host = [] ∨ expired c m.now = false ∧
    ∀ s, readSet cuts m.host m.path false m.setCookie m.now = .ok s →
      ¬Hit (sweep j m.now) m.host s c ∧ ¬Pushed (sweep j m.now) m.host s m.now c

/-! ## What each write takes out -/

theorem Jar.unique (j : Jar) {i k : Nat} {c : Cookie} (at_i : j.kept[i]? = some c)
    (at_k : j.kept[k]? = some c) : i = k := by
  obtain ⟨less, is⟩ := List.getElem?_eq_some_iff.mp at_i
  obtain ⟨less', is'⟩ := List.getElem?_eq_some_iff.mp at_k
  rcases Nat.lt_trichotomy i k with before | same | after'
  · have rises := List.pairwise_iff_getElem.mp j.rising i k less less' before
    rw [is, is'] at rises
    omega
  · exact same
  · have rises := List.pairwise_iff_getElem.mp j.rising k i less' less after'
    rw [is, is'] at rises
    omega

theorem mem_dropAt {j : Jar} {i : Nat} {c : Cookie} :
    c ∈ (dropAt j i).kept ↔ c ∈ j.kept ∧ ¬j.kept[i]? = some c := by
  show c ∈ j.kept.eraseIdx i ↔ _
  rw [List.mem_eraseIdx_iff_getElem?]
  constructor
  · rintro ⟨k, other, at_k⟩
    exact ⟨List.mem_of_getElem? at_k, fun at_i => other (j.unique at_k at_i)⟩
  · rintro ⟨inside, other⟩
    obtain ⟨k, at_k⟩ := List.getElem?_of_mem inside
    exact ⟨k, fun same => other (same ▸ at_k), at_k⟩

/-- A cookie that is refreshed without `Secure` is not a secure one any more. -/
theorem mem_refresh {j : Jar} {i : Nat} {s : Setting} {c : Cookie} (secure : c.secure = true)
    (clear : s.secure = false) :
    c ∈ (j.refresh i s).kept ↔ c ∈ j.kept ∧ ¬j.kept[i]? = some c := by
  show c ∈ j.kept.modify i (·.refreshed s) ↔ _
  constructor
  · intro inside
    obtain ⟨k, at_k⟩ := List.getElem?_of_mem inside
    rw [List.getElem?_modify] at at_k
    obtain ⟨d, was, is⟩ := Option.map_eq_some_iff.mp at_k
    split at is
    case isTrue same =>
      have changed := congrArg Cookie.secure is
      rw [secure] at changed
      simp [Cookie.refreshed, clear] at changed
    case isFalse other =>
      obtain rfl : d = c := is
      exact ⟨List.mem_of_getElem? was, fun at_i => other (j.unique at_i was)⟩
  · rintro ⟨inside, other⟩
    obtain ⟨k, at_k⟩ := List.getElem?_of_mem inside
    have apart : i ≠ k := fun same => other (same ▸ at_k)
    apply List.mem_of_getElem? (i := k)
    rw [List.getElem?_modify_ne _ _ apart]
    exact at_k

theorem mem_append {j : Jar} {host : Text} {s : Setting} {c : Cookie} (secure : c.secure = true)
    (clear : s.secure = false) : c ∈ (j.append host s).kept ↔ c ∈ j.kept := by
  unfold Jar.append
  split
  case isFalse => rfl
  case isTrue =>
    dsimp only
    rw [List.mem_append, List.mem_singleton]
    refine ⟨fun either => ?_, .inl⟩
    rcases either with old | new
    · exact old
    · rw [new] at secure
      exact absurd (secure.symm.trans clear) (by decide)

theorem mem_sweep {j : Jar} {now : Int} {c : Cookie} :
    c ∈ (sweep j now).kept ↔ c ∈ j.kept ∧ expired c now = false := by
  show c ∈ j.kept.filter _ ↔ _
  rw [List.mem_filter]
  simp

theorem readSet_clear {cut : Cuts} {host path setCookie : Text} {now : Int} {s : Setting}
    (read : readSet cut host path false setCookie now = .ok s) : s.secure = false := by
  unfold readSet at read
  split at read
  case h_1 => cases read
  case h_2 =>
    dsimp only at read
    split at read
    case isTrue => cases read
    case isFalse allowed =>
      cases read
      simpa using allowed

/-- What is kept of a secure cookie when a clear one is written. -/
theorem mem_keep {j : Jar} {host : Text} {s : Setting} {now : Int} {c : Cookie}
    (secure : c.secure = true) (clear : s.secure = false) :
    c ∈ (keep j host s now).1.kept ↔
      c ∈ j.kept ∧ ¬Hit j host s c ∧ ¬Pushed j host s now c := by
  unfold keep Hit Pushed
  cases found : find j host s.path s.name with
  | some i =>
    have written : (c ∈ j.kept ∧ ¬j.kept[i]? = some c) ↔ c ∈ j.kept ∧
        (¬∃ k, some i = some k ∧ j.kept[k]? = some c) ∧
          ¬(some i = none ∧ ¬(s.expires ≠ 0 ∧ s.expires ≤ now) ∧ here j host ≥ perHost ∧
            ∃ i, soonest j host = some i ∧ j.kept[i]? = some c) := by simp
    dsimp only
    split
    · exact mem_dropAt.trans written
    · exact (mem_refresh secure clear).trans written
  | none =>
    have noHit : ¬∃ k, (none : Option Nat) = some k ∧ j.kept[k]? = some c := by simp
    dsimp only
    split
    case isTrue already => simp [already]
    case isFalse current =>
      unfold makeRoom
      by_cases space : here j host < perHost ∧ j.kept.length < cookieMax
      · have notFull : ¬here j host ≥ perHost := by omega
        rw [if_pos space]
        dsimp only
        rw [mem_append secure clear]
        simp [notFull]
      · rw [if_neg space]
        by_cases full : here j host ≥ perHost
        · rw [if_pos full]
          cases first : soonest j host with
          | none => simp
          | some i =>
            rw [Option.map_some]
            dsimp only
            rw [mem_append secure clear, mem_dropAt]
            simp [current, full]
        · rw [if_neg full]
          simp [full]

/-- **One call keeps a secure cookie exactly where it spares it.** -/
theorem mem_clearStep {j : Jar} {c : Cookie} (secure : c.secure = true) (m : Clear) :
    c ∈ (clearStep j m).kept ↔ c ∈ j.kept ∧ Spares c j m := by
  unfold clearStep set Spares
  by_cases nobody : m.host = []
  · simp [nobody]
  · have some : m.host.isEmpty = false := by simpa using nobody
    rw [some, if_neg Bool.false_ne_true]
    cases read : readSet cuts m.host m.path false m.setCookie m.now with
    | error why =>
      dsimp only
      rw [mem_sweep]
      simp [nobody]
    | ok s =>
      dsimp only
      rw [mem_keep secure (readSet_clear read), mem_sweep]
      simp only [nobody, false_or, Except.ok.injEq, forall_eq']
      tauto

/-! ## What is carried back -/

theorem sameText_symm {a b : Text} (same : sameText a b = true) : sameText b a = true := by
  simp only [sameText, decide_eq_true_eq] at same ⊢
  exact same.symm

/-- The cookie is in the jar with its value and its mark, and a secure request it is for carries
it, as long as it is not over and there is room for what is sent. -/
structure Survives (c : Cookie) (j : Jar) : Prop where
  stays : ∃ d ∈ j.kept, d.serial = c.serial ∧ d.value = c.value ∧ d.secure = true
  sent : ∀ host path now size, host ≠ [] → sameText c.host host = true →
    pathMatches c.path (wantPath path) = true → expired c now = false →
    (joined (order (sweep j now) host path true)).length < size →
    ∃ cs, (header j host path true now size).2 = joined cs ∧ pairText c ∈ cs.map pairText

theorem survives_of_mem {j : Jar} {c : Cookie} (secure : c.secure = true) (inside : c ∈ j.kept) :
    Survives c j := by
  refine ⟨⟨c, inside, rfl, rfl, secure⟩, ?_⟩
  intro host path now size somebody same reached current room
  have swept : c ∈ (sweep j now).kept := mem_sweep.mpr ⟨inside, current⟩
  have ordered : c ∈ order (sweep j now) host path true :=
    mem_order.mpr ⟨swept, by simp [reaches, same, reached]⟩
  obtain ⟨more, -, text, all⟩ := headerLoop_joined size [] (order (sweep j now) host path true)
  obtain rfl := all (by simpa using room)
  have nonzero : ¬(size = 0 ∨ host.isEmpty = true) := by
    rw [List.isEmpty_iff]
    rintro (zero | nobody)
    · omega
    · exact somebody nobody
  refine ⟨order (sweep j now) host path true, ?_, List.mem_map_of_mem ordered⟩
  rw [header, if_neg nonzero]
  exact text

/-- The clear side makes no secure cookies. -/
theorem secure_of_run {j : Jar} {moves : List Clear} {d : Cookie} (secure : d.secure = true)
    (inside : d ∈ (run clearStep j moves).kept) : d ∈ j.kept := by
  induction moves generalizing j with
  | nil => exact inside
  | cons m moves ih => exact ((mem_clearStep secure m).mp (ih inside)).1

theorem Jar.serial_inj (j : Jar) {c d : Cookie} (hc : c ∈ j.kept) (hd : d ∈ j.kept)
    (same : c.serial = d.serial) : c = d := by
  obtain ⟨i, less, rfl⟩ := List.mem_iff_getElem.mp hc
  obtain ⟨k, less', rfl⟩ := List.mem_iff_getElem.mp hd
  rcases Nat.lt_trichotomy i k with before | rfl | after'
  · have rises := List.pairwise_iff_getElem.mp j.rising i k less less' before
    omega
  · rfl
  · have rises := List.pairwise_iff_getElem.mp j.rising k i less' less after'
    omega

theorem survives_iff {j : Jar} {c : Cookie} (inside : c ∈ j.kept) (secure : c.secure = true)
    (moves : List Clear) :
    Survives c (run clearStep j moves) ↔ c ∈ (run clearStep j moves).kept := by
  constructor
  · intro survives
    obtain ⟨d, stays, serial, -, marked⟩ := survives.stays
    have was := secure_of_run marked stays
    obtain rfl := j.serial_inj inside was serial.symm
    exact stays
  · exact survives_of_mem secure

/-- **When a secure cookie outlives the unencrypted side**: exactly when every call made there
spares it. -/
theorem secure_survives_iff (j : Jar) (c : Cookie) (inside : c ∈ j.kept)
    (secure : c.secure = true) (moves : List Clear) :
    Survives c (run clearStep j moves) ↔ Allows clearStep (Spares c) j moves := by
  rw [survives_iff inside secure]
  have kept := run_iff (I := fun j => c ∈ j.kept)
    (fun j m => mem_clearStep secure m) j moves
  rw [kept]
  simp [inside]

/-- A session set on the encrypted side. -/
def session : Cookie :=
  ⟨"a.b".toList, ['/'], "sid".toList, "1".toList, true, false, false, 0, 1⟩

def sessionJar : Jar := (Jar.empty.append "a.b".toList ⟨['/'], "sid".toList, "1".toList, true,
  false, false, 0⟩)

theorem session_kept : session ∈ sessionJar.kept := by decide

theorem session_survives_other : Survives session
    (run clearStep sessionJar [⟨"a.b".toList, ['/'], "x=2".toList, 5⟩]) := by
  apply (secure_survives_iff sessionJar session session_kept rfl _).mpr
  refine ⟨?_, trivial⟩
  have kept := (mem_clearStep (j := sessionJar) (c := session) rfl
    ⟨"a.b".toList, ['/'], "x=2".toList, 5⟩).mp (by decide +kernel)
  exact kept.2

/-- The same name, set over a connection that is not encrypted: the session is gone. -/
theorem session_overwritten : session.secure = true ∧ session ∈ sessionJar.kept ∧
    ¬Survives session
      (clearStep sessionJar ⟨"a.b".toList, ['/'], "sid=2".toList, 5⟩) := by
  refine ⟨rfl, session_kept, fun survives => ?_⟩
  obtain ⟨d, stays, -, -, marked⟩ := survives.stays
  have none : ∀ d ∈ (clearStep sessionJar ⟨"a.b".toList, ['/'], "sid=2".toList, 5⟩).kept,
      d.secure = false := by decide +kernel
  exact absurd (marked.symm.trans (none d stays)) (by decide)

end ReconOS.Cookies
