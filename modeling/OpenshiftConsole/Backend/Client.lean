import OpenshiftConsole.Backend.Credentials

/-!
# Clients of the API server

A client of the API server has no credentials of its own: each request gets those of the request that is served, or,
where a backend is set up so, those of the pod's service account, and never some of both.
-/

namespace OpenshiftConsole.Backend

open OpenshiftConsole.Library.Lines (Text)

/-- `resourcePath` -/
def resourcePath (group version plural objNamespace name : Text) : Text :=
  (if group = [] then "/api/".toList ++ version else "/apis/".toList ++ group ++ '/' :: version) ++
    (if objNamespace ≠ [] then "/namespaces/".toList ++ objNamespace else []) ++ '/' :: plural ++
    (if name ≠ [] then '/' :: name else [])

/-- How a backend is set up, and the token of its pod. -/
structure Env where
  useServiceAccountToken : Bool
  bearerToken : Except Text Text

/-- Why a request gets no credentials. -/
inductive CredentialError where
  /-- `errNoCredentials` -/
  | noCredentials
  /-- "reading service account token: %w" -/
  | noToken (err : Text)

/-- `applyCredentials` -/
def applyCredentials (env : Env) (header : Header) : Except CredentialError Header :=
  if env.useServiceAccountToken then
    match env.bearerToken with
    | .error err => .error (.noToken err)
    | .ok token => .ok (ownCredentials token)
  else
    match applyForwardedCredentials noHeader header with
    | none => .error .noCredentials
    | some out => .ok out

/-- The credentials are the plugin's if it is set up so, and else the caller's. -/
def Credentialed (env : Env) (header out : Header) : Prop :=
  if env.useServiceAccountToken then ∃ token, env.bearerToken = .ok token ∧ OfPlugin token out else OfCaller header out

variable {env : Env} {header out : Header}

theorem credentialed_of_apply (h : applyCredentials env header = .ok out) : Credentialed env header out := by
  unfold applyCredentials at h
  rw [Credentialed]
  split at h
  · rename_i hflag
    rw [if_pos hflag]
    split at h
    · cases h
    · rename_i token htoken
      obtain rfl := Except.ok.inj h
      exact ⟨token, htoken, ofPlugin_ownCredentials token⟩
  · rename_i hflag
    rw [if_neg hflag]
    split at h
    · cases h
    · rename_i out' hout
      obtain rfl := Except.ok.inj h
      exact ofCaller_of_apply (fun _ _ => rfl) hout

/-- In which form something is said does not change whose credentials it has. -/
theorem Credentialed.set {key : Text} (h : Credentialed env header out) (hkey : key ∈ formal) (value : Text) :
    Credentialed env header (out.set key value) := by
  rw [Credentialed] at h ⊢
  split
  · rename_i hflag
    rw [if_pos hflag] at h
    obtain ⟨token, htoken, hout⟩ := h
    exact ⟨token, htoken, hout.set hkey value⟩
  · rename_i hflag
    rw [if_neg hflag] at h
    exact h.set hkey value

/-- A caller with a token. -/
def caller : Header := noHeader.set authorization "Bearer t".toList

end OpenshiftConsole.Backend
