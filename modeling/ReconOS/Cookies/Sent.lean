import ReconOS.Cookies.Overwrite

/-! Where cookies go: every pair of a header against what the servers asked for, in full. -/
namespace ReconOS.Cookies
open Libc Lib

/-! ## What was asked for -/

/-- No array to fit into. -/
def uncut : Cuts := ⟨id, id⟩

/-- A set that was taken: what its text says, all of it. -/
structure Asked where
  host : Text
  name : Text
  value : Text
  wants : Attributes
  now : Int
  deriving DecidableEq

/-- It is for this host, path and name. -/
def Asked.isFor (a : Asked) (host path name : Text) : Bool :=
  sameText a.host host && a.wants.path = path && a.name = name

def ask (host path setCookie : Text) (now : Int) : List Asked :=
  match readPair setCookie with
  | .error _ => []
  | .ok (name, value) => [⟨host, name, value, readAttributes uncut host path setCookie, now⟩]

/-- A jar and, beside it, the sets that were taken, the latest last. -/
structure Traced where
  jar : Jar
  log : List Asked

def tracedStep (s : Traced) (m : Move) : Traced where
  jar := step s.jar m
  log := match m with
    | .set host path secure setCookie now =>
      if (set s.jar host path secure setCookie now).2 = none then
        s.log ++ ask host path setCookie now
      else s.log
    | _ => s.log

def tracedStart : Traced := ⟨.empty, []⟩

/-- The jar has room for all that is said: neither the host nor anything the text asks for is
cut. -/
def Whole : Move → Prop
  | .set host path _ setCookie _ => host.length < hostMax ∧
      readAttributes cuts host path setCookie = readAttributes uncut host path setCookie
  | _ => True

/-- The latest that was taken for its host, path and name. -/
def Latest (log : List Asked) (a : Asked) : Prop :=
  ∃ before after, log = before ++ a :: after ∧
    ∀ b ∈ after, b.isFor a.host a.wants.path a.name = false

/-! ## Whose cookie is whose -/

theorem sameText_trans {a b c : Text} (ab : sameText a b = true) (bc : sameText b c = true) :
    sameText a c = true := by
  simp only [sameText, decide_eq_true_eq] at *
  exact ab.trans bc

theorem soonestLoop_host {host : Text} {i : Nat} {best : Option (Nat × Int)} {cs : List Cookie}
    {k : Nat} {b : Int} (found : soonestLoop host i best cs = some (k, b)) :
    (∃ b, best = some (k, b)) ∨
      ∃ d, i ≤ k ∧ cs[k - i]? = some d ∧ sameText d.host host = true := by
  induction cs generalizing i best with
  | nil => exact .inl ⟨b, found⟩
  | cons c cs ih =>
    have past {best : Option (Nat × Int)}
        (rest : soonestLoop host (i + 1) best cs = some (k, b)) :
        (∃ b, best = some (k, b)) ∨
          ∃ d, i ≤ k ∧ (c :: cs)[k - i]? = some d ∧ sameText d.host host = true := by
      rcases ih rest with old | ⟨d, beyond, at_k, same⟩
      · exact .inl old
      · refine .inr ⟨d, by omega, ?_, same⟩
        obtain ⟨n, is⟩ : ∃ n, k - i = n + 1 := ⟨k - i - 1, by omega⟩
        have less : k - (i + 1) = n := by omega
        rw [is, List.getElem?_cons_succ, ← less]
        exact at_k
    have taken {expires : Int} (own : sameText c.host host = true)
        (is : ∃ b, some (i, expires) = some (k, b)) :
        ∃ d, i ≤ k ∧ (c :: cs)[k - i]? = some d ∧ sameText d.host host = true := by
      obtain ⟨b, same⟩ := is
      obtain ⟨rfl, -⟩ := Prod.mk.inj (Option.some.inj same)
      exact ⟨c, Nat.le_refl _, by simp, own⟩
    unfold soonestLoop at found
    split at found
    case isFalse => exact past found
    case isTrue own =>
      split at found
      case h_1 =>
        rcases past found with new | later
        · exact .inr (taken own new)
        · exact .inr later
      case h_2 j b' =>
        split at found
        case isTrue =>
          rcases past found with new | later
          · exact .inr (taken own new)
          · exact .inr later
        case isFalse => exact past found

/-- What goes to make room is the host's own. -/
theorem soonest_host {j : Jar} {host : Text} {i : Nat} (found : soonest j host = some i) :
    ∃ d, j.kept[i]? = some d ∧ sameText d.host host = true := by
  obtain ⟨⟨k, b⟩, is, rfl⟩ := Option.map_eq_some_iff.mp found
  rcases soonestLoop_host is with ⟨b, none⟩ | ⟨d, -, at_k, same⟩
  · cases none
  · exact ⟨d, by simpa using at_k, same⟩

theorem find_isAt {j : Jar} {host path name : Text} {i : Nat}
    (found : find j host path name = some i) :
    ∃ d, j.kept[i]? = some d ∧ isAt host path name d = true := by
  obtain ⟨less, is, -⟩ := List.findIdx?_eq_some_iff_getElem.mp found
  exact ⟨j.kept[i], List.getElem?_eq_getElem less, is⟩

theorem find_none {j : Jar} {host path name : Text} (absent : find j host path name = none) :
    ∀ c ∈ j.kept, isAt host path name c = false := by
  intro c inside
  have passed := List.findIdx?_eq_none_iff.mp absent c inside
  simpa using passed

theorem mem_refresh_iff {j : Jar} {i : Nat} {s : Setting} {c d : Cookie}
    (at_i : j.kept[i]? = some d) :
    c ∈ (j.refresh i s).kept ↔ c = d.refreshed s ∨ c ∈ j.kept ∧ c ≠ d := by
  show c ∈ j.kept.modify i (·.refreshed s) ↔ _
  constructor
  · intro inside
    obtain ⟨k, at_k⟩ := List.getElem?_of_mem inside
    rw [List.getElem?_modify] at at_k
    obtain ⟨e, was, is⟩ := Option.map_eq_some_iff.mp at_k
    split at is
    case isTrue same =>
      subst same
      obtain rfl := Option.some.inj (at_i.symm.trans was)
      exact .inl is.symm
    case isFalse other =>
      obtain rfl : e = c := is
      exact .inr ⟨List.mem_of_getElem? was, fun same => other (j.unique at_i (same ▸ was))⟩
  · rintro (rfl | ⟨inside, other⟩)
    · apply List.mem_of_getElem? (i := i)
      rw [List.getElem?_modify_eq, at_i]
      rfl
    · obtain ⟨k, at_k⟩ := List.getElem?_of_mem inside
      have apart : i ≠ k := by
        rintro rfl
        exact other (Option.some.inj (at_k.symm.trans at_i))
      apply List.mem_of_getElem? (i := k)
      rw [List.getElem?_modify_ne _ _ apart]
      exact at_k

/-- The cookie that a new arrival is. -/
def arrival (j : Jar) (host : Text) (s : Setting) : Cookie :=
  { host := textCopy hostMax host, path := s.path, name := s.name, value := s.value
    secure := s.secure, httpOnly := s.httpOnly, wasNarrowed := s.wasNarrowed
    expires := s.expires, serial := j.nextSerial + 1 }

theorem append_kept {j : Jar} {host : Text} {s : Setting} {c : Cookie}
    (inside : c ∈ (j.append host s).kept) : c = arrival j host s ∨ c ∈ j.kept := by
  unfold Jar.append at inside
  split at inside
  case isFalse => exact .inr inside
  case isTrue =>
    rcases List.mem_append.mp inside with old | new
    · exact .inr old
    · exact .inl (List.mem_singleton.mp new)

theorem mem_append_old {j : Jar} {host : Text} {s : Setting} {c : Cookie} (inside : c ∈ j.kept) :
    c ∈ (j.append host s).kept := by
  unfold Jar.append
  split
  case isFalse => exact inside
  case isTrue => exact List.mem_append_left _ inside

/-- No two for one host, path and name. -/
def Jar.Unique (j : Jar) : Prop :=
  j.kept.Pairwise fun c d => isAt c.host c.path c.name d = false

/-- It holds what was set. -/
structure IsSet (host : Text) (s : Setting) (c : Cookie) : Prop where
  host : sameText c.host host = true ∨ c.host = textCopy hostMax host
  path : c.path = s.path
  name : c.name = s.name
  value : c.value = s.value
  secure : c.secure = s.secure
  expires : c.expires = s.expires

/-- **What a write leaves in the jar**: what is written, if anything is, and otherwise only cookies
that were there and are not for what is written. -/
theorem keep_mem {j : Jar} {host : Text} {s : Setting} {now : Int} (one : j.Unique) {c : Cookie}
    (inside : c ∈ (keep j host s now).1.kept) :
    ((keep j host s now).2 = none ∧ IsSet host s c) ∨
      c ∈ j.kept ∧ ((keep j host s now).2 = none → isAt host s.path s.name c = false) := by
  have apart {d : Cookie} {i : Nat} (at_i : j.kept[i]? = some d)
      (own : isAt host s.path s.name d = true) (old : c ∈ j.kept) (other : c ≠ d) :
      isAt host s.path s.name c = false := by
    by_contra both
    rw [Bool.not_eq_false] at both
    simp only [isAt, Bool.and_eq_true, decide_eq_true_eq] at own both
    obtain ⟨k, at_k⟩ := List.getElem?_of_mem old
    have differ : i ≠ k := by
      rintro rfl
      exact other (Option.some.inj (at_k.symm.trans at_i))
    obtain ⟨less, is⟩ := List.getElem?_eq_some_iff.mp at_i
    obtain ⟨less', is'⟩ := List.getElem?_eq_some_iff.mp at_k
    have each := List.pairwise_iff_getElem.mp one
    rcases Nat.lt_or_gt_of_ne differ with before | behind
    · have clash := each i k less less' before
      rw [is, is'] at clash
      simp [isAt, own, both, sameText_trans both.1.1 (sameText_symm own.1.1)] at clash
    · have clash := each k i less' less behind
      rw [is, is'] at clash
      simp [isAt, own, both, sameText_trans own.1.1 (sameText_symm both.1.1)] at clash
  unfold keep at inside ⊢
  cases found : find j host s.path s.name with
  | some i =>
    obtain ⟨d, at_i, own⟩ := find_isAt found
    rw [found] at inside
    dsimp only at inside ⊢
    split at inside
    case isTrue =>
      obtain ⟨old, other⟩ := mem_dropAt.mp inside
      exact .inr ⟨old, fun _ => apart at_i own old fun same => other (same ▸ at_i)⟩
    case isFalse =>
      rcases (mem_refresh_iff at_i).mp inside with rfl | ⟨old, other⟩
      · simp only [isAt, Bool.and_eq_true, decide_eq_true_eq] at own
        rw [if_neg (by assumption)]
        exact .inl ⟨rfl, .inl own.1.1, own.1.2, own.2, rfl, rfl, rfl⟩
      · exact .inr ⟨old, fun _ => apart at_i own old other⟩
  | none =>
    have absent := find_none found
    rw [found] at inside
    dsimp only at inside ⊢
    split at inside
    case isTrue => exact .inr ⟨inside, fun _ => absent c inside⟩
    case isFalse current =>
      cases space : makeRoom j host with
      | none =>
        rw [space] at inside
        exact .inr ⟨inside, fun _ => absent c inside⟩
      | some j' =>
        rw [space] at inside
        dsimp only at inside
        have fewer : ∀ d ∈ j'.kept, d ∈ j.kept := by
          intro d
          unfold makeRoom at space
          split at space
          · cases space
            exact id
          · split at space
            · obtain ⟨i, -, rfl⟩ := Option.map_eq_some_iff.mp space
              exact fun here => (mem_dropAt.mp here).1
            · cases space
        rcases append_kept inside with rfl | old
        · rw [if_neg current]
          exact .inl ⟨rfl, .inr rfl, rfl, rfl, rfl, rfl, rfl⟩
        · exact .inr ⟨fewer c old, fun _ => absent c (fewer c old)⟩

/-! ## One for each -/

theorem Jar.Unique.sublist {j : Jar} (one : j.Unique) {kept : List Cookie}
    (sub : kept.Sublist j.kept) : (j.fewer kept sub).Unique := List.Pairwise.sublist sub one

def Cookie.key (c : Cookie) : Text × Text × Text := (c.host, c.path, c.name)

theorem modify_keys (l : List Cookie) (i : Nat) (s : Setting) :
    (l.modify i (·.refreshed s)).map Cookie.key = l.map Cookie.key := by
  induction l generalizing i with
  | nil => simp
  | cons c l ih =>
    cases i with
    | zero => rfl
    | succ i => simpa using ih i

theorem Jar.unique_iff (j : Jar) : j.Unique ↔ (j.kept.map Cookie.key).Pairwise fun a b =>
    ¬(sameText b.1 a.1 = true ∧ b.2.1 = a.2.1 ∧ b.2.2 = a.2.2) := by
  rw [List.pairwise_map]
  unfold Jar.Unique
  apply iff_of_eq
  congr 1
  funext c d
  simp [isAt, Cookie.key]

theorem Jar.Unique.refresh {j : Jar} (one : j.Unique) (i : Nat) (s : Setting) :
    (j.refresh i s).Unique := by
  rw [Jar.unique_iff] at one ⊢
  show ((j.kept.modify i (·.refreshed s)).map Cookie.key).Pairwise _
  rw [modify_keys]
  exact one

theorem Jar.Unique.append {j : Jar} (one : j.Unique) {host : Text} {s : Setting}
    (fits : host.length < hostMax) (absent : ∀ c ∈ j.kept, isAt host s.path s.name c = false) :
    (j.append host s).Unique := by
  unfold Jar.append
  split
  case isFalse => exact one
  case isTrue =>
    unfold Jar.Unique
    dsimp only
    rw [List.pairwise_append]
    refine ⟨one, List.pairwise_singleton _ _, fun c inside d new => ?_⟩
    rw [List.mem_singleton.mp new]
    have none := absent c inside
    by_contra both
    rw [Bool.not_eq_false] at both
    simp only [isAt, textCopy_fits fits, Bool.and_eq_true, decide_eq_true_eq] at both
    simp [isAt, sameText_symm both.1.1, both.1.2, both.2] at none

theorem makeRoom_cases {j j' : Jar} {host : Text} (space : makeRoom j host = some j') :
    j' = j ∨ ∃ i, soonest j host = some i ∧ j' = dropAt j i := by
  unfold makeRoom at space
  split at space
  · exact .inl (Option.some.inj space).symm
  · split at space
    · obtain ⟨i, found, rfl⟩ := Option.map_eq_some_iff.mp space
      exact .inr ⟨i, found, rfl⟩
    · cases space

theorem keep_unique {j : Jar} {host : Text} {s : Setting} {now : Int} (one : j.Unique)
    (fits : host.length < hostMax) : (keep j host s now).1.Unique := by
  unfold keep
  cases found : find j host s.path s.name with
  | some i =>
    dsimp only
    split
    · exact one.sublist (List.eraseIdx_sublist _ _)
    · exact one.refresh i s
  | none =>
    have absent := find_none found
    dsimp only
    split
    case isTrue => exact one
    case isFalse =>
      cases space : makeRoom j host with
      | none => exact one
      | some j' =>
        rcases makeRoom_cases space with rfl | ⟨i, -, rfl⟩
        · exact one.append fits absent
        · exact (one.sublist (List.eraseIdx_sublist _ _)).append fits
            fun c inside => absent c (mem_dropAt.mp inside).1

/-! ## The jar and the log -/

/-- What this set left is this cookie. -/
structure Made (a : Asked) (c : Cookie) : Prop where
  host : sameText c.host a.host = true
  path : c.path = a.wants.path
  name : c.name = a.name
  value : c.value = a.value
  secure : c.secure = a.wants.wantSecure
  expires : c.expires = expiryOf a.wants a.now

/-- Every cookie is what the latest set for it left, and there is one for each. -/
structure Traced.Ok (s : Traced) : Prop where
  one : s.jar.Unique
  latest : ∀ c ∈ s.jar.kept, ∃ a, Latest s.log a ∧ Made a c

theorem Latest.snoc {log : List Asked} {a b : Asked} (latest : Latest log a)
    (other : b.isFor a.host a.wants.path a.name = false) : Latest (log ++ [b]) a := by
  obtain ⟨before, after, rfl, none⟩ := latest
  refine ⟨before, after ++ [b], by simp, fun d inside => ?_⟩
  rcases List.mem_append.mp inside with old | new
  · exact none d old
  · rw [List.mem_singleton.mp new]
    exact other

theorem latest_last (log : List Asked) (a : Asked) : Latest (log ++ [a]) a :=
  ⟨log, [], rfl, by simp⟩

theorem readSet_ok {cut : Cuts} {host path setCookie : Text} {secure : Bool} {now : Int}
    {s : Setting} (read : readSet cut host path secure setCookie now = .ok s) :
    ∃ name value, readPair setCookie = .ok (name, value) ∧
      s = ⟨(readAttributes cut host path setCookie).path, name, value,
        (readAttributes cut host path setCookie).wantSecure,
        (readAttributes cut host path setCookie).httpOnly,
        (readAttributes cut host path setCookie).wasNarrowed,
        expiryOf (readAttributes cut host path setCookie) now⟩ := by
  unfold readSet at read
  split at read
  case h_1 => cases read
  case h_2 name value pair =>
    dsimp only at read
    split at read
    · cases read
    · exact ⟨name, value, pair, (Except.ok.inj read).symm⟩

theorem Traced.Ok.sweep {s : Traced} (ok : s.Ok) (now : Int) :
    Traced.Ok ⟨Cookies.sweep s.jar now, s.log⟩ :=
  ⟨ok.one.sublist List.filter_sublist, fun c inside => ok.latest c (mem_sweep.mp inside).1⟩

/-- A set that was taken. -/
theorem keep_ok {s : Traced} (ok : s.Ok) {host path setCookie : Text} {secure : Bool} {now : Int}
    (whole : Whole (.set host path secure setCookie now)) {setting : Setting}
    (read : readSet cuts host path secure setCookie now = .ok setting) :
    Traced.Ok ⟨(keep s.jar host setting now).1,
      if (keep s.jar host setting now).2 = none then s.log ++ ask host path setCookie now
      else s.log⟩ := by
  obtain ⟨fits, same⟩ := whole
  obtain ⟨name, value, pair, is⟩ := readSet_ok read
  have asked : ask host path setCookie now =
      [⟨host, name, value, readAttributes uncut host path setCookie, now⟩] := by
    rw [ask, pair]
  rw [same] at is
  refine ⟨keep_unique ok.one fits, fun c inside => ?_⟩
  dsimp only
  rcases keep_mem ok.one inside with ⟨taken, set⟩ | ⟨old, apart⟩
  · rw [if_pos taken, asked]
    refine ⟨_, latest_last _ _, ?_⟩
    have own : sameText c.host host = true := by
      rcases set.host with own | copied
      · exact own
      · rw [copied, textCopy_fits fits]
        exact sameText_refl host
    subst is
    exact ⟨own, set.path, set.name, set.value, set.secure, set.expires⟩
  · obtain ⟨a, latest, made⟩ := ok.latest c old
    split
    case isFalse => exact ⟨a, latest, made⟩
    case isTrue taken =>
      rw [asked]
      refine ⟨a, latest.snoc ?_, made⟩
      have none := apart taken
      by_contra both
      rw [Bool.not_eq_false] at both
      simp only [Asked.isFor, Bool.and_eq_true, decide_eq_true_eq] at both
      have own : sameText c.host host = true :=
        sameText_trans made.host (sameText_symm both.1.1)
      subst is
      simp [isAt, own, made.path, made.name, both.1.2, both.2] at none

theorem tracedStep_ok {s : Traced} (ok : s.Ok) {m : Move} (whole : Whole m) :
    (tracedStep s m).Ok := by
  cases m with
  | sweep now => exact ok.sweep now
  | header host path secure now size =>
    unfold tracedStep step header
    dsimp only
    split
    · exact ok
    · exact ok.sweep now
  | set host path secure setCookie now =>
    unfold tracedStep step set
    dsimp only
    split
    case isTrue => exact ok
    case isFalse =>
      cases read : readSet cuts host path secure setCookie now with
      | error why => exact ok.sweep now
      | ok setting => exact keep_ok (ok.sweep now) whole read

theorem run_ok {moves : List Move} (whole : ∀ m ∈ moves, Whole m) {s : Traced} (ok : s.Ok) :
    (run tracedStep s moves).Ok := by
  induction moves generalizing s with
  | nil => exact ok
  | cons m moves ih =>
    exact ih (fun m' inside => whole m' (List.mem_cons_of_mem _ inside))
      (tracedStep_ok ok (whole m List.mem_cons_self))

/-! ## What is sent -/

/-- The pair may go to this request: the set was its host's, its path covers the request's, it is
sent in the clear only if it may be, and it is not over. -/
structure MayGo (a : Asked) (host path : Text) (secure : Bool) (now : Int) : Prop where
  host : sameText a.host host = true
  path : pathMatches a.wants.path (wantPath path) = true
  secure : a.wants.wantSecure = true → secure = true
  current : expiryOf a.wants a.now = 0 ∨ now < expiryOf a.wants a.now

/-- The header is whole pairs, longer paths first and the first arrival first, each the latest set
for its host, path and name, and each one that may go. -/
def Proper (log : List Asked) (host path : Text) (secure : Bool) (now : Int) (text : Text) : Prop :=
  ∃ cs : List Cookie, text = joined cs ∧ cs.Pairwise Before ∧
    ∀ c ∈ cs, ∃ a, Latest log a ∧ Made a c ∧ MayGo a host path secure now

theorem header_proper {s : Traced} (ok : s.Ok) (host path : Text) (secure : Bool) (now : Int)
    (size : Nat) : Proper s.log host path secure now
      (header s.jar host path secure now size).2 := by
  unfold header
  split
  case isTrue => exact ⟨[], rfl, List.Pairwise.nil, by simp⟩
  case isFalse =>
    dsimp only
    obtain ⟨cs, front, text, -⟩ :=
      headerLoop_joined size [] (order (sweep s.jar now) host path secure)
    refine ⟨cs, text, (order_sorted _ _ _ _).sublist front.sublist, fun c inside => ?_⟩
    obtain ⟨kept, reached⟩ := mem_order.mp (front.subset inside)
    obtain ⟨was, current⟩ := mem_sweep.mp kept
    obtain ⟨a, latest, made⟩ := ok.latest c was
    simp only [reaches, Bool.and_eq_true, Bool.not_eq_true', Bool.and_eq_false_iff,
      Bool.not_eq_false'] at reached
    obtain ⟨⟨own, allowed⟩, covered⟩ := reached
    refine ⟨a, latest, made, ?_, ?_, ?_, ?_⟩
    · exact sameText_trans (sameText_symm made.host) own
    · rw [← made.path]
      exact covered
    · intro wants
      rw [← made.secure] at wants
      simpa [wants] using allowed
    · rw [← made.expires]
      simp only [expired, ne_eq, decide_not, Bool.and_eq_false_iff, Bool.not_eq_false',
        decide_eq_true_eq, decide_eq_false_iff_not] at current
      omega

/-- A set of one host neither takes out nor puts in a cookie of another. -/
theorem set_others (j : Jar) {host : Text} (path : Text) (secure : Bool) (setCookie : Text)
    (now : Int) (somebody : host ≠ []) (fits : host.length < hostMax) {c : Cookie}
    (other : sameText c.host host = false) :
    c ∈ (set j host path secure setCookie now).1.kept ↔
      c ∈ j.kept ∧ expired c now = false := by
  have notOwn {d : Cookie} (own : sameText d.host host = true) : d ≠ c := by
    rintro rfl
    exact absurd (own.symm.trans other) (by decide)
  have named : host.isEmpty = false := by simpa using somebody
  unfold set
  rw [named, if_neg Bool.false_ne_true]
  cases read : readSet cuts host path secure setCookie now with
  | error why => exact mem_sweep
  | ok s =>
    dsimp only
    rw [← mem_sweep]
    generalize sweep j now = j
    have dropped {i : Nat} {d : Cookie} (at_i : j.kept[i]? = some d)
        (own : sameText d.host host = true) : c ∈ (dropAt j i).kept ↔ c ∈ j.kept := by
      rw [mem_dropAt, at_i]
      have differ := notOwn own
      simp [differ]
    have appended (j : Jar) : c ∈ (j.append host s).kept ↔ c ∈ j.kept := by
      refine ⟨fun inside => ?_, mem_append_old⟩
      rcases append_kept inside with is | old
      · have own : sameText (arrival j host s).host host = true := by
          rw [arrival, textCopy_fits fits]
          exact sameText_refl host
        exact absurd is.symm (notOwn own)
      · exact old
    unfold keep
    cases found : find j host s.path s.name with
    | some i =>
      obtain ⟨d, at_i, own⟩ := find_isAt found
      simp only [isAt, Bool.and_eq_true, decide_eq_true_eq] at own
      dsimp only
      split
      · exact dropped at_i own.1.1
      · rw [mem_refresh_iff at_i]
        have differ := notOwn own.1.1
        have differ' := notOwn (d := d.refreshed s) own.1.1
        simp [differ'.symm, differ.symm]
    | none =>
      dsimp only
      split
      · rfl
      cases space : makeRoom j host with
      | none => rfl
      | some j' =>
        dsimp only
        rw [appended]
        rcases makeRoom_cases space with rfl | ⟨i, first, rfl⟩
        · rfl
        · obtain ⟨d, at_i, own⟩ := soonest_host first
          exact dropped at_i own

/-- **Cookies go only where they may**, in every run of a jar in which nothing that was set was cut
to fit: every header is proper, and no host's set touches another's cookies. -/
theorem cookies_go_home (moves : List Move) (whole : ∀ m ∈ moves, Whole m) :
    let s := run tracedStep tracedStart moves;
    (∀ host path secure now size, Proper s.log host path secure now
      (header s.jar host path secure now size).2) ∧
    ∀ host path secure setCookie now c, Whole (.set host path secure setCookie now) → host ≠ [] →
      sameText c.host host = false →
      (c ∈ (set s.jar host path secure setCookie now).1.kept ↔
        c ∈ s.jar.kept ∧ expired c now = false) := by
  have ok := run_ok whole (s := tracedStart) ⟨List.Pairwise.nil, by simp [tracedStart, Jar.empty]⟩
  refine ⟨header_proper ok, ?_⟩
  intro host path secure setCookie now c fits somebody other
  exact set_others _ path secure setCookie now somebody fits.1 other

/-- Two cookies of one host, for paths one inside the other, and one of another host. -/
def shopping : List Move :=
  [.set "a.b".toList ['/'] true "x=1".toList 5,
    .set "a.b".toList ['/'] true "y=2; Path=/shop".toList 6,
    .set "c.d".toList ['/'] false "x=3".toList 7]

theorem shopping_whole : ∀ m ∈ shopping, Whole m := by
  intro m inside
  unfold shopping at inside
  cases inside with
  | head => exact ⟨by decide, by decide⟩
  | tail _ inside =>
    cases inside with
    | head => exact ⟨by decide, by decide⟩
    | tail _ inside =>
      rw [List.mem_singleton.mp inside]
      exact ⟨by decide, by decide⟩

/-- The cookie of the longer path comes first, the other host's is not sent, and what the other host
sets leaves both. -/
theorem cookies_go_home_shopping :
    let s := run tracedStep tracedStart shopping;
    let sent := (header s.jar "a.b".toList "/shop/1".toList true 8 100).2;
    sent = "y=2; x=1".toList ∧ Proper s.log "a.b".toList "/shop/1".toList true 8 sent ∧
    ∀ c, sameText c.host "c.d".toList = false →
      (c ∈ (set s.jar "c.d".toList ['/'] false "y=4; Path=/shop".toList 8).1.kept ↔
        c ∈ s.jar.kept ∧ expired c 8 = false) := by
  obtain ⟨proper, others⟩ := cookies_go_home shopping shopping_whole
  refine ⟨by decide +kernel, proper .., fun c other => ?_⟩
  exact others _ _ _ _ _ c ⟨by decide, by decide⟩ (by decide) other

/-- A path of three hundred characters, and as much of it as is kept. -/
def longPath : Text := '/' :: List.replicate 299 'a'
def keptPath : Text := '/' :: List.replicate 254 'a'

def longSet : Text := "x=1; Path=".toList ++ longPath

/-- The cookie set for the long path goes to a request that path does not cover. -/
theorem cookie_goes_astray :
    (set .empty "a.b".toList ['/'] true longSet 5).2 = none ∧
      (readAttributes uncut "a.b".toList ['/'] longSet).path = longPath ∧
      pathMatches longPath keptPath = false ∧
      (header (set .empty "a.b".toList ['/'] true longSet 5).1 "a.b".toList keptPath true 5 100).2 =
        "x=1".toList := by
  decide +kernel

end ReconOS.Cookies
