import ArrayKernel.Intrinsic.Table

/-!
Helper functions that every kernel can call, written in the kernel language itself. They are read
when a call reaches them and are expanded in place like any other function.
-/

namespace ArrayKernel

structure Helper where
  name : String
  source : String
  deriving DecidableEq, Repr

namespace Helper

def polarDecompose2D : Helper :=
  { name := "polarDecompose2D"
    source := "
(A, U, P) => \x7b
    let x = A[0, 0] + A[1, 1]
    let y = A[1, 0] - A[0, 1]
    let inv = 1.0 / sqrt(x * x + y * y)
    let c = x * inv
    let s = y * inv
    let R = [[c, -s], [s, c]]
    U = R
    P = R.transpose().matmul(A)
\x7d
" }

/-- The singular value decomposition of a two by two matrix, the larger value first. -/
def svd2D : Helper :=
  { name := "svd2D"
    source := "
(A, U, E, V) => \x7b
    let R = [[0.0, 0.0], [0.0, 0.0]]
    let S = [[0.0, 0.0], [0.0, 0.0]]
    polarDecompose2D(A, R, S)
    let c = 0.0
    let s = 0.0
    let s1 = 0.0
    let s2 = 0.0
    if (abs(S[0, 1]) < 1e-5) \x7b
        c = 1.0
        s1 = S[0, 0]
        s2 = S[1, 1]
    \x7d else \x7b
        let tau = 0.5 * (S[0, 0] - S[1, 1])
        let w = sqrt(tau * tau + S[0, 1] * S[0, 1])
        let t = 0.0
        if (tau > 0) \x7b
            t = S[0, 1] / (tau + w)
        \x7d else \x7b
            t = S[0, 1] / (tau - w)
        \x7d
        c = 1.0 / sqrt(t * t + 1.0)
        s = -t * c
        s1 = c * c * S[0, 0] - 2.0 * c * s * S[0, 1] + s * s * S[1, 1]
        s2 = s * s * S[0, 0] + 2.0 * c * s * S[0, 1] + c * c * S[1, 1]
    \x7d
    if (s1 < s2) \x7b
        let tmp = s1
        s1 = s2
        s2 = tmp
        V = [[-s, c], [-c, -s]]
    \x7d else \x7b
        V = [[c, s], [-s, c]]
    \x7d
    U = R.matmul(V)
    E = [[s1, 0.0], [0.0, s2]]
\x7d
" }

def lookAt : Helper :=
  { name := "lookAt"
    source := "
(eye, center, up) => \x7b
    let z = normalize(eye - center)
    let x = normalize(cross(up, z))
    let y = normalize(cross(z, x))
    return [
        [x.x, x.y, x.z, -dot(x, eye)],
        [y.x, y.y, y.z, -dot(y, eye)],
        [z.x, z.y, z.z, -dot(z, eye)],
        [0.0, 0.0, 0.0, 1.0]
    ]
\x7d
" }

def perspective : Helper :=
  { name := "perspective"
    source := "
(fovy, aspect, near, far) => \x7b
    let t = tan(fovy * Math.PI / 360.0)
    let m = [
        [0.0, 0.0, 0.0, 0.0],
        [0.0, 0.0, 0.0, 0.0],
        [0.0, 0.0, 0.0, 0.0],
        [0.0, 0.0, 0.0, 0.0]
    ]
    m[0, 0] = 1.0 / (aspect * t)
    m[1, 1] = 1.0 / t
    m[2, 2] = -(far + near) / (far - near)
    m[2, 3] = -(2.0 * far * near) / (far - near)
    m[3, 2] = -1.0
    return m
\x7d
" }

def inverse : Helper :=
  { name := "inverse"
    source := "
(m) => \x7b
    let c00 = m[1, 1] * m[2, 2] - m[2, 1] * m[1, 2]
    let c01 = m[1, 0] * m[2, 2] - m[1, 2] * m[2, 0]
    let c02 = m[1, 0] * m[2, 1] - m[1, 1] * m[2, 0]
    let inv = 1.0 / (m[0, 0] * c00 - m[0, 1] * c01 + m[0, 2] * c02)
    return [
        [c00 * inv, (m[0, 2] * m[2, 1] - m[0, 1] * m[2, 2]) * inv, (m[0, 1] * m[1, 2] - m[0, 2] * m[1, 1]) * inv],
        [-c01 * inv, (m[0, 0] * m[2, 2] - m[0, 2] * m[2, 0]) * inv, (m[1, 0] * m[0, 2] - m[0, 0] * m[1, 2]) * inv],
        [c02 * inv, (m[2, 0] * m[0, 1] - m[0, 0] * m[2, 1]) * inv, (m[0, 0] * m[1, 1] - m[1, 0] * m[0, 1]) * inv]
    ]
\x7d
" }

def all : List Helper := [polarDecompose2D, svd2D, lookAt, perspective, inverse]

def find? (name : String) : Option Helper :=
  let bare := Intrinsic.bareName ["ti."] name
  all.find? (·.name == bare)

end Helper

end ArrayKernel
